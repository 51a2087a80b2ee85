import AvaServe.Eplb.RelocationPlan
import AvaServe.Foundation.MatchedExchange

/-!
# All ranks relocating at once

The programs of all ranks form an exchange whose messages match in every batch, so no run
gets stuck, and at its end every slot holds the weights of the expert it was assigned.
-/

namespace AvaServe.Eplb

open Foundation List Nat

namespace Relocation

variable {layer : Relocation} {worldSize : ℕ} {Value : Type}

/-- The messages of a list of operations in one direction, to or from one peer, labelled
with the expert and the index of the tensor. -/
def messages (direction : Direction) (peer : ℕ) (ops : List P2POp) : List ((ℕ × ℕ) × Slot) :=
  (ops.filter fun op => decide (op.op = direction ∧ op.peer = peer)).map fun op =>
    ((op.logicalExpertId, op.slot.1), op.slot)

/-- The exchange of the programs of all ranks. -/
def exchange (layer : Relocation) (programs : Fin worldSize → RankProgram Value) :
    Exchange (Fin worldSize) Slot (ℕ × ℕ) where
  rounds := layer.numBatches
  sends a b batch := messages .isend b ((programs a).batches batch)
  recvs b a batch := messages .irecv a ((programs b).batches batch)
  copies a := (programs a).copies

/-- The messages of several experts. -/
theorem messages_flatMap (direction : Direction) (peer : ℕ) (experts : List ℕ)
    (ops : ℕ → List P2POp) : messages direction peer (experts.flatMap ops) =
      experts.flatMap fun e => messages direction peer (ops e) := by
  unfold messages
  rw [filter_flatMap, map_flatMap]

/-- A block of operations with one peer is a block of messages for that peer. -/
theorem messages_block (direction direction' : Direction) (slot e holder peer : ℕ) :
    messages direction' peer ((range layer.numTensors).map fun i =>
        (⟨direction, (i, slot), holder, e⟩ : P2POp)) =
      if direction = direction' ∧ holder = peer then
        (range layer.numTensors).map fun i => ((e, i), (i, slot)) else [] := by
  unfold messages
  split
  next same =>
    rw [filter_eq_self.mpr, map_map]
    · rfl
    · intro op member
      obtain ⟨i, -, rfl⟩ := mem_map.mp member
      exact decide_eq_true same
  next differs =>
    rw [filter_eq_nil_iff.mpr, map_nil]
    intro op member yes
    obtain ⟨i, -, rfl⟩ := mem_map.mp member
    exact differs (of_decide_eq_true yes)

/-- The receives from a peer. -/
theorem messages_recvOps (dst e holder peer : ℕ) :
    messages .irecv peer (layer.recvOps dst e holder) =
      if holder = peer then (range layer.numTensors).map fun i =>
        ((e, i), (i, dst % layer.numLocalPhysicalExperts)) else [] := by
  rw [recvOps, messages_block]
  simp

/-- Receives send nothing. -/
theorem messages_isend_recvOps (dst e holder peer : ℕ) :
    messages .isend peer (layer.recvOps dst e holder) = [] := by
  rw [recvOps, messages_block]
  simp

/-- Sends receive nothing. -/
theorem messages_irecv_sendOps (src e peer : ℕ) (dstRanks : List ℕ) :
    messages .irecv peer (layer.sendOps src e dstRanks) = [] := by
  simp [sendOps, messages_flatMap, messages_block]

/-- A list of ranks without repetition has one block of messages for a peer in it. -/
theorem messages_sendOps {src e peer : ℕ} {dstRanks : List ℕ} (nodup : dstRanks.Nodup) :
    messages .isend peer (layer.sendOps src e dstRanks) =
      if peer ∈ dstRanks then (range layer.numTensors).map fun i =>
        ((e, i), (i, src % layer.numLocalPhysicalExperts)) else [] := by
  unfold sendOps
  rw [messages_flatMap]
  simp only [messages_block, true_and]
  induction dstRanks with
  | nil => rfl
  | cons first rest ih =>
    obtain ⟨absent, nodup⟩ := nodup_cons.mp nodup
    rw [flatMap_cons, ih nodup]
    by_cases same : first = peer
    · subst same
      rw [if_pos rfl, if_neg absent, if_pos mem_cons_self, append_nil]
    · have iff : peer ∈ first :: rest ↔ peer ∈ rest := by
        rw [mem_cons]
        exact or_iff_right (Ne.symm same)
      rw [if_neg same, nil_append]
      simp [iff]

/-! ### The operations of the batches -/

/-- The experts of a batch. -/
theorem mem_batchExperts {batch e : ℕ} (member : e ∈ layer.batchExperts batch) :
    batch * layer.batchChunkSize ≤ e ∧ e < (batch + 1) * layer.batchChunkSize ∧
      e < layer.numPhysicalExperts := by
  unfold batchExperts at member
  rw [mem_range'_1] at member
  rw [succ_mul]
  omega

/-- Every expert id below the number of physical experts is in one batch. -/
theorem exists_batch (positive : layer.batchChunkSize ≠ 0) {e : ℕ}
    (bounded : e < layer.numPhysicalExperts) :
    ∃ batch < layer.numBatches, e ∈ layer.batchExperts batch := by
  have chunk : 0 < layer.batchChunkSize := pos_of_ne_zero positive
  refine ⟨e / layer.batchChunkSize, ?_, ?_⟩
  · unfold numBatches
    rw [div_lt_iff_lt_mul chunk]
    have whole := lt_div_mul_add
      (a := layer.numPhysicalExperts + layer.batchChunkSize - 1) chunk
    omega
  · have low := div_mul_le_self e layer.batchChunkSize
    have high := lt_div_mul_add (a := e) chunk
    unfold batchExperts
    rw [mem_range'_1]
    omega

/-- All experts of all batches, in order. -/
def scheduled (layer : Relocation) (count : ℕ) : List ℕ :=
  (range count).flatMap layer.batchExperts

/-- Experts are scheduled in order. -/
theorem sorted_scheduled (layer : Relocation) (count : ℕ) :
    (layer.scheduled count).Pairwise (· < ·) := by
  unfold scheduled
  rw [pairwise_flatMap]
  refine ⟨fun batch _ => pairwise_lt_range', ?_⟩
  refine pairwise_lt_range.imp fun {a b} less x xMem y yMem => ?_
  have one := mem_batchExperts xMem
  have other := mem_batchExperts yMem
  have order : (a + 1) * layer.batchChunkSize ≤ b * layer.batchChunkSize :=
    mul_le_mul_right _ less
  omega

/-! ### Programs -/

/-- The copies of all tensors of one entry. -/
def copyBlock (layer : Relocation) (info : ℕ × ℕ) : List (Slot × Slot) :=
  (range layer.numTensors).map fun i =>
    ((i, info.1 % layer.numLocalPhysicalExperts), (i, info.2 % layer.numLocalPhysicalExperts))

/-- The messages of all tensors of an expert, at one local location. -/
def messageBlock (layer : Relocation) (e place : ℕ) : List ((ℕ × ℕ) × Slot) :=
  (range layer.numTensors).map fun i => ((e, i), (i, place))

/-- A program as a rank leaves it to run. -/
structure Ready (layer : Relocation) (rank : ℕ) (weights tempBuffers : Slot → Value)
    (ops : ℕ → List P2POp) (program : RankProgram Value) : Prop where
  serves : ∀ e, layer.Serves rank e (ops e)
  batches : ∀ batch, program.batches batch = (layer.batchExperts batch).flatMap ops
  copies : program.copies =
    ((layer.localExpertLocations rank).filterMap (layer.copyEntry rank)).flatMap layer.copyBlock
  buffers : ∀ dst ∈ layer.localExpertLocations rank, ∀ src,
    layer.sourceOf rank dst = some (.sameGpu src) → ∀ i < layer.numTensors,
      program.tempBuffers (i, dst % layer.numLocalPhysicalExperts) =
        weights (i, src % layer.numLocalPhysicalExperts)
  unused : ∀ slot : Slot, (∀ dst ∈ layer.localExpertLocations rank, ∀ src,
    layer.sourceOf rank dst = some (.sameGpu src) →
      dst % layer.numLocalPhysicalExperts ≠ slot.2) → program.tempBuffers slot = tempBuffers slot

section Program

variable (valid : layer.Valid worldSize)
include valid

/-- What the copy back of a location reads and writes. -/
theorem copyEntry_spec {rank dst : ℕ} {info : ℕ × ℕ} (inWorld : rank < worldSize)
    (member : dst ∈ layer.localExpertLocations rank)
    (found : layer.copyEntry rank dst = some info) :
    info.2 = dst ∧ info.1 ∈ layer.localExpertLocations rank := by
  obtain ⟨e, assigned⟩ := exists_expert valid.new_length inWorld member
  obtain ⟨source, isSource, justified⟩ := sourceOf_spec valid member assigned
  rw [copyEntry, isSource, Option.bind_eq_bind] at found
  cases source with
  | unchanged => cases found
  | sameGpu src =>
    cases found
    exact ⟨rfl, member⟩
  | freeRider src =>
    cases found
    exact ⟨rfl, justified.2.1⟩
  | sameNode holder | crossNode holder =>
    cases found
    exact ⟨rfl, member⟩

omit valid in
/-- The copies of local locations. -/
theorem buffer2weightCopies_eq {rank : ℕ} {infos : List (ℕ × ℕ)}
    (inside : ∀ info ∈ infos, info.1 ∈ layer.localExpertLocations rank ∧
      info.2 ∈ layer.localExpertLocations rank) :
    layer.buffer2weightCopies rank infos = some (infos.flatMap layer.copyBlock) := by
  have each : infos.mapM (fun info => do
      let source ← layer.getLocalExpertLocation rank info.1
      let target ← layer.getLocalExpertLocation rank info.2
      pure ((range layer.numTensors).map fun i => ((i, source), (i, target)))) =
      some (infos.map layer.copyBlock) := by
    induction infos with
    | nil => rfl
    | cons info rest ih =>
      obtain ⟨source, target⟩ := inside info mem_cons_self
      rw [mapM_cons, getLocal_of_mem source, getLocal_of_mem target,
        ih fun other later => inside other (mem_cons_of_mem _ later)]
      rfl
  rw [buffer2weightCopies, each]
  rfl

/-- A rank's program exists and is ready. -/
theorem updateExpertWeights_spec {rank : ℕ} (inWorld : rank < worldSize)
    {activeRanks : Option (ℕ → Bool)}
    (active : ∀ isActive, activeRanks = some isActive → ∀ other < worldSize, isActive other = true)
    (weights tempBuffers : Slot → Value) :
    ∃ program ops, layer.updateExpertWeightsSingleLayer activeRanks rank weights tempBuffers =
      some program ∧ layer.Ready rank weights tempBuffers ops program := by
  obtain ⟨plan, created, planned⟩ := createPlan_spec valid inWorld weights tempBuffers
  have unfiltered : filterP2POps activeRanks plan.p2pOpInfos = plan.p2pOpInfos :=
    filterP2POps_of_active fun isActive isSome entry among op opMem =>
      active isActive isSome op.peer (planned.peers entry among op opMem)
  have copies := @buffer2weightCopies_eq layer rank plan.buffer2weightCopyInfos (by
    intro info among
    rw [planned.copies] at among
    obtain ⟨dst, member, found⟩ := mem_filterMap.mp among
    obtain ⟨target, source⟩ := copyEntry_spec valid inWorld member found
    exact ⟨source, target ▸ member⟩)
  refine ⟨⟨plan.tempBuffers, layer.batchOps plan.p2pOpInfos,
    plan.buffer2weightCopyInfos.flatMap layer.copyBlock⟩, opsByExpert plan.p2pOpInfos, ?_,
    planned.serves, fun _ => rfl, by rw [planned.copies], planned.buffers, planned.unused⟩
  unfold updateExpertWeightsSingleLayer
  rw [created, Option.bind_eq_bind, Option.bind_some, unfiltered, copies]
  simp [valid.chunk]

end Program

/-! ### Matching -/

/-- An expert is asked of one holder. -/
theorem Asks.unique {rank e one other : ℕ} (first : layer.Asks rank e one)
    (second : layer.Asks rank e other) : one = other := by
  obtain near | far := first <;> obtain near' | far' := second
  · exact Source.sameNode.inj (Option.some.inj (near.symm.trans near'))
  · cases Option.some.inj (near.symm.trans far')
  · cases Option.some.inj (far.symm.trans near')
  · exact Source.crossNode.inj (Option.some.inj (far.symm.trans far'))

section Messages

variable (valid : layer.Valid worldSize) {rank peer e : ℕ} {ops : List P2POp}
include valid

section

variable (serves : layer.Serves rank e ops)
include serves

/-- A rank sends to the peers that ask it, from a location that holds the expert. -/
theorem sends_cases : (∃ src ∈ layer.localExpertLocations rank,
      layer.oldPhysicalToLogicalMap[src]? = some e ∧ layer.Asks peer e rank ∧
      messages .isend peer ops = layer.messageBlock e (src % layer.numLocalPhysicalExperts)) ∨
    ¬layer.Asks peer e rank ∧ messages .isend peer ops = [] := by
  by_cases holds : layer.Holds rank e
  · obtain ⟨src, member, held, dstRanks, chosen, rfl⟩ := serves.sends holds
    obtain ⟨dstRanks', chosen', nodup, iff⟩ := allDstRanks_spec valid holds
    obtain rfl := Option.some.inj (chosen.symm.trans chosen')
    rw [messages_sendOps nodup]
    by_cases asked : peer ∈ dstRanks
    · exact .inl ⟨src, member, held, (iff peer).mp asked, if_pos asked⟩
    · exact .inr ⟨fun asks => asked ((iff peer).mpr asks), if_neg asked⟩
  refine .inr ⟨fun asks => holds (asks.spec valid).2, ?_⟩
  by_cases wants : layer.Wants rank e
  · obtain ⟨dst, -, -, -, holder, -, rfl⟩ := serves.recvs holds wants
    exact messages_isend_recvOps dst e holder peer
  · rw [serves.idle holds wants]
    rfl

/-- A rank receives from the peer it asks, to the first location that wants the expert. -/
theorem recvs_cases : (∃ dst ∈ layer.localExpertLocations rank,
      layer.newPhysicalToLogicalMap[dst]? = some e ∧ layer.FirstWant rank dst e ∧
      layer.Asks rank e peer ∧
      messages .irecv peer ops = layer.messageBlock e (dst % layer.numLocalPhysicalExperts)) ∨
    ¬layer.Asks rank e peer ∧ messages .irecv peer ops = [] := by
  by_cases holds : layer.Holds rank e
  · obtain ⟨src, -, -, dstRanks, -, rfl⟩ := serves.sends holds
    exact .inr ⟨fun asks => (asks.spec valid).1.2 holds, messages_irecv_sendOps src e peer dstRanks⟩
  by_cases wants : layer.Wants rank e
  · obtain ⟨dst, member, assigned, first, holder, asked, rfl⟩ := serves.recvs holds wants
    rw [messages_recvOps]
    by_cases same : holder = peer
    · exact .inl ⟨dst, member, assigned, first, same ▸ asked, if_pos same⟩
    · exact .inr ⟨fun asks => same (asked.unique asks), if_neg same⟩
  · rw [serves.idle holds wants]
    exact .inr ⟨fun asks => wants (asks.spec valid).1.1, rfl⟩

/-- For one expert the sends to a peer carry the labels of its receives. -/
theorem labels_match {peerOps : List P2POp} (peerServes : layer.Serves peer e peerOps) :
    (messages .isend peer ops).map Prod.fst = (messages .irecv rank peerOps).map Prod.fst := by
  obtain ⟨src, -, -, asks, sends⟩ | ⟨other, sends⟩ := @sends_cases _ _ valid _ peer _ _ serves <;>
    obtain ⟨dst, -, -, -, asks', recvs⟩ | ⟨other', recvs⟩ :=
      @recvs_cases _ _ valid _ rank _ _ peerServes
  · rw [sends, recvs, messageBlock, messageBlock, map_map, map_map]
    rfl
  · exact absurd asks other'
  · exact absurd asks' other
  · rw [sends, recvs]

end

end Messages

section Exchange

variable (valid : layer.Valid worldSize) {weights tempBuffers : Fin worldSize → Slot → Value}
  {ops : Fin worldSize → ℕ → List P2POp} {programs : Fin worldSize → RankProgram Value}
  (ready : ∀ rank : Fin worldSize,
    layer.Ready rank (weights rank) (tempBuffers rank) (ops rank) (programs rank))
include valid ready

/-- Every send meets its receive. -/
theorem exchange_matched : (layer.exchange programs).Matched := by
  intro a b batch
  change (messages .isend b ((programs a).batches batch)).map Prod.fst =
    (messages .irecv a ((programs b).batches batch)).map Prod.fst
  rw [(ready a).batches, (ready b).batches, messages_flatMap, messages_flatMap, map_flatMap,
    map_flatMap]
  exact congrArg ((layer.batchExperts batch).flatMap)
    (funext fun e => labels_match valid ((ready a).serves e) ((ready b).serves e))

omit valid in
/-- The messages of the first batches. -/
theorem messages_upTo (direction : Direction) (a : Fin worldSize) (peer count : ℕ) :
    ((range count).flatMap fun batch => messages direction peer ((programs a).batches batch)) =
      (layer.scheduled count).flatMap fun e => messages direction peer (ops a e) := by
  unfold scheduled
  rw [flatMap_assoc]
  refine congrArg ((range count).flatMap) (funext fun batch => ?_)
  rw [(ready a).batches, messages_flatMap]

omit valid in
/-- The receives of the first batches. -/
theorem recvsUpTo_eq (b a : Fin worldSize) (count : ℕ) :
    (layer.exchange programs).recvsUpTo b a count =
      (layer.scheduled count).flatMap fun e => messages .irecv a (ops b e) :=
  messages_upTo ready .irecv b a count

variable {b a : Fin worldSize}

/-- A receive of a rank goes to the first location that wants the expert. -/
theorem recv_spec {count : ℕ} {recv : (ℕ × ℕ) × Slot}
    (member : recv ∈ (layer.exchange programs).recvsUpTo b a count) :
    ∃ dst ∈ layer.localExpertLocations b, ∃ e i,
      layer.newPhysicalToLogicalMap[dst]? = some e ∧ layer.Asks b e a ∧
        recv = ((e, i), (i, dst % layer.numLocalPhysicalExperts)) := by
  rw [recvsUpTo_eq ready] at member
  obtain ⟨e, -, member⟩ := mem_flatMap.mp member
  obtain ⟨dst, dstMem, assigned, -, asks, recvs⟩ | ⟨-, recvs⟩ :=
    recvs_cases valid ((ready b).serves e) <;> rw [recvs] at member
  · obtain ⟨i, -, rfl⟩ := mem_map.mp member
    exact ⟨dst, dstMem, e, i, assigned, asks, rfl⟩
  · exact absurd member not_mem_nil

/-- A send of a rank reads a slot of the expert. -/
theorem send_spec {count : ℕ} {send : (ℕ × ℕ) × Slot}
    (member : send ∈ (layer.exchange programs).sendsUpTo a b count) :
    ∃ src ∈ layer.localExpertLocations a, ∃ e, ∃ i < layer.numTensors,
      layer.oldPhysicalToLogicalMap[src]? = some e ∧
        send = ((e, i), (i, src % layer.numLocalPhysicalExperts)) := by
  rw [Exchange.sendsUpTo, exchange, messages_upTo ready] at member
  obtain ⟨e, -, member⟩ := mem_flatMap.mp member
  obtain ⟨src, srcMem, held, -, sends⟩ | ⟨-, sends⟩ :=
    sends_cases valid ((ready a).serves e) <;> rw [sends] at member
  · obtain ⟨i, bound, rfl⟩ := mem_map.mp member
    exact ⟨src, srcMem, e, i, mem_range.mp bound, held, rfl⟩
  · exact absurd member not_mem_nil

/-- No receive is posted twice. -/
theorem nodup_recvsUpTo (b a : Fin worldSize) (count : ℕ) :
    ((layer.exchange programs).recvsUpTo b a count).Nodup := by
  rw [recvsUpTo_eq ready, nodup_flatMap]
  have labelled (e : ℕ) : (∀ recv ∈ messages .irecv (a : ℕ) (ops b e), recv.1.1 = e) ∧
      (messages .irecv (a : ℕ) (ops b e)).Nodup := by
    obtain ⟨dst, -, -, -, -, recvs⟩ | ⟨-, recvs⟩ := recvs_cases valid ((ready b).serves e) <;>
      rw [recvs]
    · refine ⟨fun recv member => ?_, nodup_range.map fun i j same => ?_⟩
      · obtain ⟨i, -, rfl⟩ := mem_map.mp member
        rfl
      · exact congrArg (fun message : (ℕ × ℕ) × Slot => message.1.2) same
    · exact ⟨nofun, nodup_nil⟩
  refine ⟨fun e _ => (labelled e).2, (layer.sorted_scheduled count).imp ?_⟩
  intro x y less recv one other
  have same := ((labelled x).1 recv one).symm.trans ((labelled y).1 recv other)
  omega

/-- No slot is written twice. -/
theorem exchange_writesOnce : (layer.exchange programs).WritesOnce := by
  intro b a k a' k' first second isFirst isSecond same
  obtain ⟨dst, dstMem, e, i, assigned, asks, rfl⟩ := recv_spec valid ready (mem_of_getElem? isFirst)
  obtain ⟨dst', dstMem', e', i', assigned', asks', rfl⟩ :=
    recv_spec valid ready (mem_of_getElem? isSecond)
  obtain ⟨sameTensor, samePlace⟩ := Prod.ext_iff.mp same
  obtain rfl : i = i' := sameTensor
  obtain rfl : dst = dst' := local_injective dstMem dstMem' samePlace
  obtain rfl := Option.some.inj (assigned.symm.trans assigned')
  obtain rfl : a = a' := Fin.ext (asks.unique asks')
  refine ⟨rfl, ?_⟩
  obtain ⟨less, atFirst⟩ := List.getElem?_eq_some_iff.mp isFirst
  obtain ⟨less', atSecond⟩ := List.getElem?_eq_some_iff.mp isSecond
  exact (nodup_recvsUpTo valid ready b a _).getElem_inj_iff.mp (atFirst.trans atSecond.symm)

/-! ### What the slots hold -/

/-- All slots of all ranks hold the weights of the experts a map assigns to them. -/
def Loaded (layer : Relocation) (map : List ℕ) (expertWeights : ℕ → ℕ → Value)
    (weights : Fin worldSize → Slot → Value) : Prop :=
  ∀ (rank : Fin worldSize) (x e i : ℕ), x ∈ layer.localExpertLocations rank →
    map[x]? = some e → i < layer.numTensors →
    weights rank (i, x % layer.numLocalPhysicalExperts) = expertWeights e i

omit valid ready in
/-- An expert has one first location. -/
theorem FirstWant.unique {rank e x y : ℕ} (xMem : x ∈ layer.localExpertLocations rank)
    (yMem : y ∈ layer.localExpertLocations rank)
    (xAssigned : layer.newPhysicalToLogicalMap[x]? = some e)
    (yAssigned : layer.newPhysicalToLogicalMap[y]? = some e)
    (xFirst : layer.FirstWant rank x e) (yFirst : layer.FirstWant rank y e) : x = y := by
  by_contra differs
  obtain less | less := lt_or_gt_of_ne differs
  · exact yFirst x xMem less xAssigned
  · exact xFirst y yMem less yAssigned

omit ready in
/-- A wanted expert is scheduled. -/
theorem mem_scheduled (bounded : layer.Bounded) {rank e : ℕ} (wants : layer.Wants rank e) :
    e ∈ layer.scheduled layer.numBatches := by
  obtain ⟨x, -, found⟩ := wants
  obtain ⟨batch, less, member⟩ := exists_batch valid.chunk (bounded e (mem_of_getElem? found))
  exact mem_flatMap.mpr ⟨batch, mem_range.mpr less, member⟩

section Final

variable (bounded : layer.Bounded) {expertWeights : ℕ → ℕ → Value}
  {state : Exchange.State (Fin worldSize) Slot Value}
  (loaded : layer.Loaded layer.oldPhysicalToLogicalMap expertWeights weights)
  (steady :
    (layer.exchange programs).Steady weights (fun rank => (programs rank).tempBuffers) state)
include bounded loaded steady

/-- After its last batch a rank has received the weights of the experts it asked for. -/
theorem received_weights (past : state.round b = layer.numBatches) {dst e i holder : ℕ}
    (member : dst ∈ layer.localExpertLocations b)
    (assigned : layer.newPhysicalToLogicalMap[dst]? = some e) (first : layer.FirstWant b dst e)
    (asks : layer.Asks b e holder) (bound : i < layer.numTensors) :
    state.buffer b (i, dst % layer.numLocalPhysicalExperts) = expertWeights e i := by
  have holds := (asks.spec valid).2
  obtain ⟨a, rfl⟩ : ∃ a : Fin worldSize, (a : ℕ) = holder :=
    ⟨⟨holder, valid.rank_lt rfl holds⟩, rfl⟩
  obtain ⟨dst', member', assigned', first', -, recvs⟩ | ⟨other, -⟩ :=
    @recvs_cases _ _ valid _ a _ _ ((ready b).serves e)
  swap
  · exact absurd asks other
  obtain rfl := first.unique member member' assigned assigned' first'
  have among : ((e, i), (i, dst % layer.numLocalPhysicalExperts)) ∈
      (layer.exchange programs).recvsUpTo b a layer.numBatches := by
    rw [recvsUpTo_eq ready]
    refine mem_flatMap.mpr ⟨e, mem_scheduled valid bounded ⟨dst, member, assigned⟩, ?_⟩
    rw [recvs]
    exact mem_map.mpr ⟨i, mem_range.mpr bound, rfl⟩
  obtain ⟨k, isRecv⟩ := mem_iff_getElem?.mp among
  have matched := exchange_matched valid ready
  have less := (List.getElem?_eq_some_iff.mp isRecv).1
  have sendLess : k < ((layer.exchange programs).sendsUpTo a b layer.numBatches).length := by
    rw [matched.length_eq]
    exact less
  obtain ⟨send, isSend⟩ : ∃ send,
      ((layer.exchange programs).sendsUpTo a b layer.numBatches)[k]? = some send :=
    ⟨_, getElem?_eq_getElem sendLess⟩
  have complete : k < state.moved a b := less.trans_le (steady.complete past)
  rw [steady.received a b k send _ complete isSend isRecv]
  have labels := congrArg (fun labels : List (ℕ × ℕ) => labels[k]?)
    (matched.upTo a b layer.numBatches)
  simp only [getElem?_map, isSend, isRecv, Option.map_some, Option.some.injEq] at labels
  obtain ⟨src, srcMem, e', i', bound', held, rfl⟩ := send_spec valid ready (mem_of_getElem? isSend)
  obtain ⟨rfl, rfl⟩ := Prod.ext_iff.mp labels
  exact loaded a src e' i' srcMem held bound'

omit valid bounded loaded steady in
/-- No location is copied into twice. -/
theorem copies_nodup (b : Fin worldSize) (valid : layer.Valid worldSize) :
    ((programs b).copies.map Prod.snd).Nodup := by
  rw [(ready b).copies, map_flatMap, nodup_flatMap]
  constructor
  · intro info _
    unfold copyBlock
    rw [map_map]
    refine nodup_range.map fun i j same => ?_
    exact congrArg Prod.fst same
  · rw [pairwise_filterMap]
    refine (layer.nodup_local b).imp_of_mem fun {x y} xMem yMem differs one isOne other isOther =>
      ?_
    obtain ⟨oneTarget, -⟩ := copyEntry_spec valid b.isLt xMem isOne
    obtain ⟨otherTarget, -⟩ := copyEntry_spec valid b.isLt yMem isOther
    intro slot inOne inOther
    obtain ⟨pair, pairMem, rfl⟩ := mem_map.mp inOne
    obtain ⟨i, -, rfl⟩ := mem_map.mp pairMem
    obtain ⟨pair', pairMem', same⟩ := mem_map.mp inOther
    obtain ⟨i', -, rfl⟩ := mem_map.mp pairMem'
    have place := congrArg Prod.snd same
    rw [oneTarget, otherTarget] at place
    exact differs (local_injective yMem xMem place).symm

/-- What the copy back of a location leaves in its slot. -/
theorem copied_weights (past : state.round b = layer.numBatches) {dst e i : ℕ} {info : ℕ × ℕ}
    (member : dst ∈ layer.localExpertLocations b)
    (assigned : layer.newPhysicalToLogicalMap[dst]? = some e) (bound : i < layer.numTensors)
    (found : layer.copyEntry b dst = some info) :
    state.buffer b (i, info.1 % layer.numLocalPhysicalExperts) = expertWeights e i := by
  obtain ⟨source, isSource, justified⟩ := sourceOf_spec valid member assigned
  rw [copyEntry, isSource, Option.bind_eq_bind] at found
  cases source with
  | unchanged => cases found
  | sameGpu src =>
    cases found
    rw [steady.untouched b]
    · rw [(ready b).buffers dst member src isSource i bound]
      exact loaded b src e i justified.1 justified.2 bound
    · intro a k recv _ isRecv same
      obtain ⟨dst', dstMem', e', i', assigned', asks, rfl⟩ :=
        recv_spec valid ready (mem_of_getElem? isRecv)
      obtain rfl := local_injective dstMem' member (congrArg Prod.snd same)
      obtain rfl := Option.some.inj (assigned.symm.trans assigned')
      exact (asks.spec valid).1.2 ⟨src, justified⟩
  | freeRider src =>
    cases found
    obtain ⟨lacks, srcMem, -, filled, first⟩ := justified
    obtain ⟨holder, asks⟩ := exists_asks valid ⟨src, srcMem, filled⟩ lacks
    exact received_weights valid ready bounded loaded steady past srcMem filled first asks bound
  | sameNode holder | crossNode holder =>
    cases found
    exact received_weights valid ready bounded loaded steady past member assigned justified.1
      justified.2
      bound

/-- At the end every slot holds what the new map assigns to it. -/
theorem loaded_of_finished (finished : (layer.exchange programs).Finished state) :
    layer.Loaded layer.newPhysicalToLogicalMap expertWeights state.memory := by
  intro b dst e i member assigned bound
  rw [steady.memory_of_finished finished b]
  change Exchange.runCopies (programs b).copies _ _ _ = _
  have copies := (ready b).copies
  cases found : layer.copyEntry b dst with
  | some info =>
    obtain ⟨target, -⟩ := copyEntry_spec valid b.isLt member found
    have among : ((i, info.1 % layer.numLocalPhysicalExperts),
        (i, dst % layer.numLocalPhysicalExperts)) ∈ (programs b).copies := by
      rw [copies]
      refine mem_flatMap.mpr ⟨info, mem_filterMap.mpr ⟨dst, member, found⟩, ?_⟩
      rw [← target]
      exact mem_map.mpr ⟨i, mem_range.mpr bound, rfl⟩
    rw [Exchange.runCopies_of_mem (copies_nodup ready b valid) among]
    exact copied_weights valid ready bounded loaded steady
      (finished b).1 member assigned bound found
  | none =>
    rw [Exchange.runCopies_of_not_mem]
    · obtain ⟨source, isSource, justified⟩ := sourceOf_spec valid member assigned
      rw [copyEntry, isSource, Option.bind_eq_bind] at found
      cases source with
      | unchanged => exact loaded b dst e i member justified bound
      | sameGpu src | freeRider src | sameNode holder | crossNode holder => cases found
    · rw [copies]
      intro among
      obtain ⟨pair, pairMem, same⟩ := mem_map.mp among
      obtain ⟨info, infoMem, pairMem⟩ := mem_flatMap.mp pairMem
      obtain ⟨j, -, rfl⟩ := mem_map.mp pairMem
      obtain ⟨dst', member', found'⟩ := mem_filterMap.mp infoMem
      obtain ⟨target, -⟩ := copyEntry_spec valid b.isLt member' found'
      have place := congrArg Prod.snd same
      rw [target] at place
      obtain rfl := local_injective member' member place
      rw [found] at found'
      cases found'

end Final

end Exchange

/-- For every number of ranks, GPUs per node and slots per rank and all maps: no rank
raises; in every batch the sends from one rank to another carry the labels of the receives
of the other from the first, in order; a run is never stuck before its end and ends; at its
end every slot holds the old weights of the expert the new map assigns to it; a message
reads weights no copy has overwritten; and no message arrives in the buffers a copy reads
from after it. -/
theorem expert_relocation_correct (valid : layer.Valid worldSize) (bounded : layer.Bounded)
    {activeRanks : Option (ℕ → Bool)}
    (active : ∀ isActive, activeRanks = some isActive → ∀ rank < worldSize, isActive rank = true)
    {expertWeights : ℕ → ℕ → Value} {weights : Fin worldSize → Slot → Value}
    (loaded : layer.Loaded layer.oldPhysicalToLogicalMap expertWeights weights)
    (tempBuffers : Fin worldSize → Slot → Value) : ∃ programs : Fin worldSize → RankProgram Value,
      (∀ rank : Fin worldSize, layer.updateExpertWeightsSingleLayer activeRanks rank (weights rank)
        (tempBuffers rank) = some (programs rank)) ∧
      (layer.exchange programs).Matched ∧
      ∀ events state, Path (Exchange.Step (layer.exchange programs))
          (Exchange.start weights fun rank => (programs rank).tempBuffers) events state →
        events.length ≤ (layer.exchange programs).potential
          (Exchange.start weights fun rank => (programs rank).tempBuffers) ∧
        ((layer.exchange programs).Finished state ∨
          ∃ event next, Exchange.Step (layer.exchange programs) state event next) ∧
        ((layer.exchange programs).Finished state →
          layer.Loaded layer.newPhysicalToLogicalMap expertWeights state.memory) ∧
        (∀ a b next, Exchange.Step (layer.exchange programs) state (.transfer a b) next →
          state.memory a = weights a) ∧
        ∀ a next, Exchange.Step (layer.exchange programs) state (.copy a) next →
          ∀ events' later, Path (Exchange.Step (layer.exchange programs)) next events' later →
            later.buffer a = state.buffer a := by
  choose programs ops updated ready using fun rank : Fin worldSize =>
    updateExpertWeights_spec valid rank.isLt active (weights rank) (tempBuffers rank)
  have matched := exchange_matched valid ready
  have once := exchange_writesOnce valid ready
  refine ⟨programs, updated, matched, fun events state path => ?_⟩
  have steady := Exchange.Steady.path once path
  refine ⟨Exchange.length_le_potential path, ?_, ?_, ?_, ?_⟩
  · exact (em _).imp_right (steady.progress matched)
  · exact loaded_of_finished valid ready bounded loaded steady
  · intro a b next step
    cases step with
    | transfer _ _ send recv sent posted =>
      exact steady.memory_of_sent (List.getElem?_eq_some_iff.mp sent).1
  · intro a next step events' later path'
    have steadyNext := steady.step once step
    cases step with
    | copy _ pair past found => exact steadyNext.buffer_fixed once path' past

/-! ### Two ranks that swap their experts -/

/-- Two ranks with one slot each swap two experts. -/
def swap (one other : ℕ) : Relocation where
  numLocalPhysicalExperts := 1
  numGpuPerNode := 1
  numTensors := 1
  batchChunkSize := 32
  oldPhysicalToLogicalMap := [one, other]
  newPhysicalToLogicalMap := [other, one]

/-- The weights of the two experts are their ids. -/
def swapWeights (one other : ℕ) (rank : Fin 2) (_ : Slot) : ℕ :=
  if rank.val = 0 then one else other

/-- The swap is valid. -/
theorem valid_swap (one other : ℕ) : (swap one other).Valid 2 where
  gpus := one_ne_zero
  chunk := show 32 ≠ 0 by decide
  old_length := rfl
  new_length := rfl
  covered e member := by
    simp only [swap, mem_cons, not_mem_nil, or_false] at member ⊢
    exact member.symm

/-- Its weights are loaded. -/
theorem loaded_swap (one other : ℕ) :
    (swap one other).Loaded (swap one other).oldPhysicalToLogicalMap (fun e _ => e)
      (swapWeights one other) := by
  intro rank x e i member found _
  have isRank : x = rank := by
    have bounds := mem_local_iff.mp member
    simp only [swap] at bounds
    omega
  subst isRank
  fin_cases rank <;> exact Option.some.inj found

/-- Two ranks swap their experts. -/
theorem expert_relocation_correct_swap : ∃ programs : Fin 2 → RankProgram ℕ,
      (∀ rank : Fin 2, (swap 0 1).updateExpertWeightsSingleLayer none rank
        (swapWeights 0 1 rank) (fun _ => 7) = some (programs rank)) ∧
      ∀ events state, Path (Exchange.Step ((swap 0 1).exchange programs))
          (Exchange.start (swapWeights 0 1) fun rank => (programs rank).tempBuffers) events state →
        ((swap 0 1).exchange programs).Finished state → state.memory 0 (0, 0) = 1 := by
  obtain ⟨programs, updated, -, runs⟩ := expert_relocation_correct (valid_swap 0 1)
    (show ∀ e ∈ [1, 0], e < 2 by decide)
    (show ∀ isActive, (none : Option (ℕ → Bool)) = some isActive → _ from fun _ none => by
      cases none) (loaded_swap 0 1) fun _ _ => 7
  refine ⟨programs, updated, fun events state path finished => ?_⟩
  exact (runs events state path).2.2.1 finished 0 0 1 0 (by decide) rfl (by decide)

/-- Two ranks that swap experts with ids beyond the number of physical experts: no batch
holds their messages, and a rank copies back a buffer nobody wrote. -/
theorem unscheduled_experts_lost : ∃ programs : Fin 2 → RankProgram ℕ,
      (∀ rank : Fin 2, (swap 2 3).updateExpertWeightsSingleLayer none rank
        (swapWeights 2 3 rank) (fun _ => 7) = some (programs rank)) ∧
      (swap 2 3).Loaded (swap 2 3).oldPhysicalToLogicalMap (fun e _ => e) (swapWeights 2 3) ∧
      ∃ events state, Path (Exchange.Step ((swap 2 3).exchange programs))
          (Exchange.start (swapWeights 2 3) fun rank => (programs rank).tempBuffers) events state ∧
        ((swap 2 3).exchange programs).Finished state ∧
        ¬(swap 2 3).Loaded (swap 2 3).newPhysicalToLogicalMap (fun e _ => e) state.memory := by
  have valid := valid_swap 2 3
  choose programs ops updated ready using fun rank : Fin 2 =>
    @updateExpertWeights_spec (swap 2 3) 2 ℕ valid rank rank.isLt none
      (nofun) (swapWeights 2 3 rank) fun _ => 7
  have once := exchange_writesOnce valid ready
  obtain ⟨events, state, path, steady, finished⟩ :=
    (Exchange.steady_start ((swap 2 3).exchange programs) (swapWeights 2 3)
      fun rank => (programs rank).tempBuffers).exists_finished (exchange_matched valid ready) once
  refine ⟨programs, updated, loaded_swap 2 3, events, state, path, finished, fun all => ?_⟩
  have expected : state.memory 0 (0, 0) = 3 := all 0 0 3 0 (by decide) rfl (by decide)
  have source : (swap 2 3).sourceOf 0 0 = some (.crossNode 1) := by decide
  have among : ((0, 0), (0, 0)) ∈ (programs 0).copies := by
    rw [(ready 0).copies]
    decide
  have copied := Exchange.runCopies_of_mem (copies_nodup ready 0 valid) among
    (state.buffer 0) (swapWeights 2 3 0)
  have only : ∀ x ∈ (swap 2 3).localExpertLocations 0, x = 0 := by decide
  have read : state.buffer 0 (0, 0) = 7 := by
    rw [steady.untouched 0]
    · refine (ready 0).unused (0, 0) fun dst member src sameGpu => ?_
      rw [only dst member] at sameGpu
      cases source.symm.trans sameGpu
    · intro a k recv _ isRecv _
      have inBatch := mem_of_getElem? isRecv
      rw [recvsUpTo_eq ready] at inBatch
      obtain ⟨e, scheduled, received⟩ := mem_flatMap.mp inBatch
      have small :=
        (show ∀ e ∈ (swap 2 3).scheduled (swap 2 3).numBatches, e = 0 ∨ e = 1 by decide) e scheduled
      have idle : ops 0 e = [] := by
        refine ((ready 0).serves e).idle ?_ ?_
        · rintro ⟨x, member, found⟩
          obtain rfl := only x member
          have value : 2 = e := Option.some.inj found
          omega
        · rintro ⟨x, member, found⟩
          obtain rfl := only x member
          have value : 3 = e := Option.some.inj found
          omega
      rw [idle] at received
      exact absurd received not_mem_nil
  rw [steady.memory_of_finished finished 0] at expected
  have final := copied.symm.trans expected
  rw [read] at final
  cases final

end Relocation

end AvaServe.Eplb

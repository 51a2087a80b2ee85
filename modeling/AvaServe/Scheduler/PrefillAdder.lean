import AvaServe.Foundation.Paging

/-!
# Prefill admission

The prefill adder without host-cache hits: requests are admitted one at a time
against two running offsets, `rem_total_token_offset` and `cur_rem_token_offset`,
that are subtracted from what the allocator has free and what the tree cache can
evict. Locking the prefix of a candidate makes the evictable size shrink, so the
tree cache is part of the state. Sliding-window and Mamba pools and diffusion
decoding are features of the path for requests that ignore end-of-sequence; the
other path is over a paged pool without them.

An admission is sound when the pages that `alloc_extend` takes for all admitted
requests together fit into the free pages and the evictable tokens that remain.
Whether that holds depends on one input only, the initial offset that the
running batch contributes.
-/

namespace AvaServe.Scheduler

open AvaServe.Foundation List

/-- What the adder uses of a tree cache whose pages have `pageSize` tokens: the
evictable size and the reference-counted locks on prefixes. Releasing a lock
undoes taking it, and the evictable size counts whole pages. -/
structure LockableCache (pageSize : ℕ) where
  Cache : Type
  Node : Type
  disable : Bool
  evictableSize : Cache → ℤ
  incLockRef : Cache → Node → Cache
  decLockRef : Cache → Node → Cache
  decLockRef_incLockRef : ∀ cache node, decLockRef (incLockRef cache node) node = cache
  evictableSize_nonneg : ∀ cache, 0 ≤ evictableSize cache
  evictableSize_dvd : ∀ cache, (pageSize : ℤ) ∣ evictableSize cache

/-- The lengths and sampling parameters of a request that admission reads. -/
structure ReqLengths where
  originInputLen : ℕ
  outputLen : ℕ
  maxNewTokens : ℕ
  ignoreEos : Bool := false
  deriving DecidableEq, Repr

/-- A candidate: its fill tokens, its matched prefix and the node of that match. -/
structure CandidateReq (Node : Type) extends ReqLengths where
  fillLen : ℕ
  prefixLen : ℕ
  lastNode : Node
  holdsMamba : Bool := false

/-- The half-open range of positions a batch prefills for one request. -/
structure ExtendRange where
  start : ℤ
  stop : ℤ
  deriving DecidableEq, Repr

/-- The tokens of a range. -/
def ExtendRange.length (range : ExtendRange) : ℤ := range.stop - range.start

/-- `AddReqResult`. -/
inductive AddReqResult
  | continue_
  | noToken
  | other
  deriving DecidableEq, Repr

/-- How tiles are budgeted. -/
inductive TileBudgetMode
  | legacy
  | compact
  deriving DecidableEq, Repr

/-- The parameters of an adder that stay fixed. The delayer's verdict is one per
pass, since its executor remembers the first negotiation. `scaledNewTokens` is
`max_new_tokens * new_token_ratio` and `minFreeTokens` is `free - tokens_left * bs`, which
the source computes in floats; exactly by default. -/
structure AdderConfig where
  pageSize : ℕ
  pageSize_pos : 0 < pageSize
  newTokenRatio : ℚ := 1
  scaledNewTokens : ℕ → ℚ := fun tokens => tokens * newTokenRatio
  minFreeTokens : ℚ → ℚ → ℚ → ℚ := fun free tokensLeft bs => free - tokensLeft * bs
  clipMaxNewTokens : ℕ := 4096
  dsaPrefillCpInSeqSplit : Bool := false
  prefillMaxRequests : Option ℤ := none
  delayerVerdict : Option Bool := none
  isHip : Bool := false
  prefillTileBudget : ℤ := 0
  prefillTileBudgetMode : TileBudgetMode := .compact
  prefillTileBlockM : ℕ := 64
  runningBatch : Option (List ReqLengths) := none

/-- What an adder may have beside the paged pool: a sliding-window pool, with what is free and
evictable of it, a shared pool of Mamba slots, and the blocks of diffusion decoding. -/
structure PoolFeatures where
  isHybridSwa : Bool := false
  slidingWindowSize : ℤ := 0
  swaAvailableAndEvictable : ℤ := 0
  mambaSlotCost : ℤ := 0
  dllmBlockSize : Option ℤ := none

/-- The share of the gap that a new Mamba slot of a request takes. -/
def PoolFeatures.mambaGapBudgetForReq {Node : Type} (features : PoolFeatures)
    (req : CandidateReq Node) : ℤ :=
  if features.mambaSlotCost ≠ 0 ∧ req.holdsMamba = false then features.mambaSlotCost else 0

/-- `IGNORE_EOS_RESERVE_TOKENS`. -/
def ignoreEosReserveTokens : ℚ := 1

/-- The running state of an adder. -/
structure PrefillAdder (config : AdderConfig) (tree : LockableCache config.pageSize) where
  availablePages : ℕ
  cache : tree.Cache
  remInputTokens : ℤ
  remChunkTokens : Option ℤ
  remTotalTokenOffset : ℚ
  curRemTokenOffset : ℤ
  remSwaTokenOffset : ℤ := 0
  remMambaSlots : Option ℤ := none
  remDllmTokens : ℤ := 0
  reqStates : Option (List (ℚ × ℤ)) := none
  canRunList : List (CandidateReq tree.Node × ExtendRange) := []
  newChunkedReq : Option (CandidateReq tree.Node) := none

variable (config : AdderConfig)

/-- What one running request is expected to decode still. -/
def AdderConfig.getRunningRequestTotalTokenOffset (req : ReqLengths) : ℚ :=
  ((min ((req.maxNewTokens : ℤ) - req.outputLen) config.clipMaxNewTokens : ℤ) : ℚ) *
    config.newTokenRatio

/-- What the whole running batch is expected to decode still. -/
def AdderConfig.runningOffset : ℚ :=
  ((config.runningBatch.getD []).map config.getRunningRequestTotalTokenOffset).sum

namespace PrefillAdder

variable {config : AdderConfig} {tree : LockableCache config.pageSize}

/-- The constructor. -/
def init (config : AdderConfig) (tree : LockableCache config.pageSize) (availablePages : ℕ)
    (cache : tree.Cache) (remInputTokens : ℤ) (remChunkTokens : Option ℤ)
    (numMixedDecodeTokens : ℤ) : PrefillAdder config tree :=
  { availablePages := availablePages
    cache := cache
    remInputTokens := remInputTokens - numMixedDecodeTokens
    remChunkTokens := remChunkTokens.map (· - numMixedDecodeTokens)
    remTotalTokenOffset := numMixedDecodeTokens + config.runningOffset
    curRemTokenOffset := numMixedDecodeTokens }

variable (adder : PrefillAdder config tree)

/-- `available_size` of the allocator. -/
def availableSize : ℤ := adder.availablePages * config.pageSize

/-- What is free or evictable. -/
def availableAndEvictable : ℤ := adder.availableSize + tree.evictableSize adder.cache

/-- `rem_total_tokens`. -/
def remTotalTokens : ℚ := adder.availableAndEvictable - adder.remTotalTokenOffset

/-- `cur_rem_tokens`. -/
def curRemTokens : ℤ := adder.availableAndEvictable - adder.curRemTokenOffset

end PrefillAdder

/-- `ceil_paged_tokens`. -/
def AdderConfig.ceilPagedTokens (tokens : ℤ) : ℤ :=
  ceilPages config.pageSize tokens * config.pageSize

/-- The query tiles of a batch with these extend lengths, by the configured mode. -/
def AdderConfig.estimatePrefillExtendTiles (extendLens : List ℤ) : ℤ :=
  let qTiles := extendLens.map fun length =>
    if 0 < max 0 length then ceilPages config.prefillTileBlockM (max 0 length) else 0
  match config.prefillTileBudgetMode with
  | .legacy => qTiles.length * qTiles.foldr max 0
  | .compact => qTiles.sum

variable {offset : ℚ} {truncationAlignSize : Option ℕ+} {chunkTokensLimit truncLen : ℤ}

namespace PrefillAdder

variable {config : AdderConfig} {tree : LockableCache config.pageSize}

variable (adder : PrefillAdder config tree)

/-- The tile budget of the HIP backend. Requests do not carry an
`extend_input_len` any more, so every admitted request counts as empty. -/
def checkPrefillTileBudget (candidateExtendLen : ℤ) : Option AddReqResult :=
  if ¬ config.isHip ∨ config.prefillTileBudget ≤ 0 then none
  else if adder.canRunList.isEmpty then none
  else if config.estimatePrefillExtendTiles
      (adder.canRunList.map (fun _ => 0) ++ [candidateExtendLen]) ≤ config.prefillTileBudget then
    none
  else some .other

variable (features : PoolFeatures)

/-- What is left of the sliding-window pool. -/
def remSwaTokens : ℤ := features.swaAvailableAndEvictable - adder.remSwaTokenOffset

/-- The share of the sliding-window pool that a request takes. -/
def swaBudgetForReq (extendInputLen maxNewTokens : ℤ) : ℤ :=
  let alloc := (adder.remChunkTokens.map (min extendInputLen)).getD extendInputLen
  let headroom := min (extendInputLen + maxNewTokens) features.slidingWindowSize
  max (alloc - features.slidingWindowSize) 0 + (headroom + config.pageSize)

/-- Why to stop, if there is a reason to. -/
def budgetState : AddReqResult :=
  if adder.remTotalTokens ≤ 0 ∨ adder.curRemTokens ≤ 0 ∨
      features.isHybridSwa = true ∧ adder.remSwaTokens features ≤ 0 ∨
      adder.remMambaSlots.any (fun slots => decide (slots ≤ 0)) then .noToken
  else if adder.remInputTokens ≤ 0 then .other
  else if features.dllmBlockSize.isSome then
    if adder.remDllmTokens ≤ 0 then .other else .continue_
  else if adder.remChunkTokens.any (fun tokens => decide (tokens ≤ 0)) then .other
  else .continue_

/-- Charge the budgets for a request. -/
def updatePrefillBudget (extendInputLen maxNewTokens mambaGapReserve : ℤ) :
    PrefillAdder config tree :=
  let extendInputLen := config.ceilPagedTokens extendInputLen
  let pageOverhead : ℤ := config.pageSize
  { adder with
    remTotalTokenOffset := adder.remTotalTokenOffset +
      ((extendInputLen + maxNewTokens + pageOverhead + mambaGapReserve : ℤ) : ℚ)
    curRemTokenOffset := adder.curRemTokenOffset + (extendInputLen + pageOverhead + mambaGapReserve)
    remMambaSlots :=
      if mambaGapReserve ≠ 0 then adder.remMambaSlots.map (· - 1) else adder.remMambaSlots
    remInputTokens := adder.remInputTokens - extendInputLen
    remSwaTokenOffset :=
      if features.isHybridSwa then
        adder.remSwaTokenOffset + adder.swaBudgetForReq features extendInputLen maxNewTokens
      else adder.remSwaTokenOffset
    remDllmTokens :=
      if features.dllmBlockSize.isSome then adder.remDllmTokens - extendInputLen
      else adder.remDllmTokens
    remChunkTokens :=
      if features.dllmBlockSize.isSome then adder.remChunkTokens
      else adder.remChunkTokens.map (· - extendInputLen) }

variable (req : CandidateReq tree.Node)

/-- Put a request on the run list with its extend range and charge the budget. -/
def commitReq (range : ExtendRange) (chargedLen maxNewTokens : ℤ) : PrefillAdder config tree :=
  { adder with canRunList := adder.canRunList ++ [(req, range)] }.updatePrefillBudget features
    chargedLen maxNewTokens (features.mambaGapBudgetForReq req)

/-- How long a request may still run and how many tokens it occupies, if it may
run at all. -/
def reqState (config : AdderConfig) (req : ReqLengths) : Option (ℚ × ℤ) :=
  let newTokens : ℚ :=
    if req.ignoreEos then req.maxNewTokens else config.scaledNewTokens req.maxNewTokens
  let tokensLeft := newTokens - req.outputLen
  if tokensLeft ≤ 0 then none else some (tokensLeft, req.originInputLen + req.outputLen)

/-- Insertion keeps the loop index of the source: without a larger entry the new
one goes before the last. -/
def insertReqState (states : List (ℚ × ℤ)) (entry : ℚ × ℤ) : List (ℚ × ℤ) :=
  states.insertIdx ((states.findIdx? fun other => decide (entry.1 ≤ other.1)).getD
    (states.length - 1)) entry

/-- The schedule that a call looks at: built by the first call, then inserted into. -/
def nextReqStates : List (ℚ × ℤ) :=
  match adder.reqStates with
  | none =>
    let reqs := req.toReqLengths :: config.runningBatch.getD [] ++
      adder.canRunList.map (fun entry => entry.1.toReqLengths)
    (reqs.filterMap (reqState config)).insertionSort fun first second => first.1 ≤ second.1
  | some states =>
    match reqState config req.toReqLengths with
    | none => states
    | some entry => insertReqState states entry

/-- Each request in turn must leave room for the ones that run longer. -/
def reserveFits (config : AdderConfig) (curRemTokens tokensFreed : ℚ) : List (ℚ × ℤ) → Bool
  | [] => true
  | (tokensLeft, tokensOccupied) :: rest =>
    let bs : ℚ := rest.length + 1
    let minFreeTokens := config.minFreeTokens (curRemTokens + tokensFreed) tokensLeft bs
    if minFreeTokens ≤ ignoreEosReserveTokens * bs then false
    else reserveFits config curRemTokens (tokensFreed + tokensOccupied) rest

/-- Commit a whole sequence, or stop at the tile budget. -/
def addWholeIgnoreEos : AddReqResult × PrefillAdder config tree :=
  match adder.checkPrefillTileBudget (req.fillLen - req.prefixLen) with
  | some tileStop => (tileStop, adder)
  | none =>
    let range : ExtendRange := ⟨req.prefixLen, req.fillLen⟩
    let adder := adder.commitReq features req range range.length
      (min req.maxNewTokens config.clipMaxNewTokens)
    (adder.budgetState features, adder)

/-- Commit a chunk of a sequence, or stop at the tile budget. A request whose
sequence is cut must not have a prefix. -/
def addChunkIgnoreEos (truncLen : ℤ) : Option (AddReqResult × PrefillAdder config tree) :=
  match adder.checkPrefillTileBudget truncLen with
  | some tileStop => some (tileStop, adder)
  | none =>
    if req.prefixLen ≠ 0 then none
    else
      let adder := { adder with newChunkedReq := some req }.commitReq features req
        ⟨req.prefixLen, req.prefixLen + truncLen⟩ truncLen 0
      some (adder.budgetState features, adder)

/-- Commit a block of diffusion decoding, or stop at the tile budget. -/
def addDllmIgnoreEos (blockSize : ℤ) : AddReqResult × PrefillAdder config tree :=
  match adder.checkPrefillTileBudget (req.fillLen - req.prefixLen) with
  | some tileStop => (tileStop, adder)
  | none =>
    let truncLen := min adder.remDllmTokens blockSize / config.pageSize * config.pageSize
    let adder := adder.commitReq features req ⟨0, truncLen⟩ truncLen 0
    (adder.budgetState features, adder)

/-- What a request may still decode, clipped. -/
def swaNewTokens (config : AdderConfig) (req : ReqLengths) : ℤ :=
  min (max ((req.maxNewTokens : ℤ) - req.outputLen) 0) config.clipMaxNewTokens

/-- Admission of a request that ignores end-of-sequence, used when the tree
cache is disabled. -/
def addOneReqIgnoreEos : Option (AddReqResult × PrefillAdder config tree) :=
  let candExtendInputLen : ℤ := req.fillLen - req.prefixLen
  let pagedInput := config.ceilPagedTokens candExtendInputLen
  if min (adder.curRemTokens : ℚ) adder.remTotalTokens <
      (pagedInput + features.mambaGapBudgetForReq req : ℤ) then
    some (.noToken, adder)
  else if features.isHybridSwa = true ∧ adder.remSwaTokens features <
      adder.swaBudgetForReq features candExtendInputLen (swaNewTokens config req.toReqLengths) then
    some (.noToken, adder)
  else
    let reqStates := adder.nextReqStates req
    let adder := { adder with reqStates := some reqStates }
    if features.isHybridSwa = false ∧
        ¬reserveFits config (adder.curRemTokens - pagedInput : ℤ) 0 reqStates then
      some (.noToken, adder)
    else if config.delayerVerdict = some false then some (.other, adder)
    else
      match features.dllmBlockSize with
      | some blockSize =>
        if adder.remDllmTokens ≤ 0 then some (.other, adder)
        else some (adder.addDllmIgnoreEos features req blockSize)
      | none =>
        match adder.remChunkTokens with
        | none => some (adder.addWholeIgnoreEos features req)
        | some chunkTokens =>
          if candExtendInputLen ≤ chunkTokens then some (adder.addWholeIgnoreEos features req)
          else if chunkTokens ≤ 0 then some (.other, adder)
          else adder.addChunkIgnoreEos features req chunkTokens

/-- Lock the matched prefix of a request. -/
def lock : PrefillAdder config tree :=
  { adder with cache := tree.incLockRef adder.cache req.lastNode }

/-- Release it. -/
def unlock : PrefillAdder config tree :=
  { adder with cache := tree.decLockRef adder.cache req.lastNode }

/-- The part of a chunk that ends on a page boundary, and on a multiple of the
truncation alignment when one is set; `none` when nothing is left of it. -/
def truncatedLen (config : AdderConfig) (chunkTokensLimit : ℤ) (prefixLen : ℕ)
    (truncationAlignSize : Option ℕ+) : Option ℤ :=
  let truncLen := chunkTokensLimit / config.pageSize * config.pageSize
  if truncLen ≤ 0 then none
  else
    let aligned : Option ℤ :=
      match truncationAlignSize with
      | none => some truncLen
      | some size =>
        if truncLen < (size : ℕ) then none else some ((size : ℕ) * (truncLen / (size : ℕ)))
    aligned.bind fun truncLen =>
      let nowInputLen := (truncLen + prefixLen) / config.pageSize * config.pageSize
      let truncLen := nowInputLen - prefixLen
      if truncLen ≤ 0 then none else some truncLen

/-- Lock and commit a whole sequence, or stop at the tile budget. -/
def addWholeLocked (inputTokens : ℤ) : Option AddReqResult × PrefillAdder config tree :=
  match adder.checkPrefillTileBudget inputTokens with
  | some tileStop => (some tileStop, adder)
  | none =>
    (none, (adder.lock req).commitReq {} req ⟨req.prefixLen, req.fillLen⟩ inputTokens
      (min req.maxNewTokens config.clipMaxNewTokens))

/-- Lock and commit a chunk of a sequence, or stop when nothing is left of it or
at the tile budget. -/
def addChunkLocked (chunkTokensLimit : ℤ) (truncationAlignSize : Option ℕ+) :
    Option AddReqResult × PrefillAdder config tree :=
  match truncatedLen config chunkTokensLimit req.prefixLen truncationAlignSize with
  | none => (some .other, adder)
  | some truncLen =>
    match adder.checkPrefillTileBudget truncLen with
    | some tileStop => (some tileStop, adder)
    | none =>
      (none, ({ adder with newChunkedReq := some req }.lock req).commitReq {} req
        ⟨req.prefixLen, req.prefixLen + truncLen⟩ truncLen 0)

/-- The body of `add_one_req` under the temporary lock. `none` falls through to
the budget state after the lock is released. -/
def addOneReqLocked (totalTokens : ℤ) (truncationAlignSize : Option ℕ+) :
    Option AddReqResult × PrefillAdder config tree :=
  if adder.remTotalTokens ≤ totalTokens then (some .noToken, adder)
  else if config.delayerVerdict = some false then (some .other, adder)
  else
    let inputTokens := config.ceilPagedTokens (req.fillLen - req.prefixLen)
    match adder.remChunkTokens with
    | none =>
      if adder.canRunList ≠ [] ∧ adder.remInputTokens ≤ inputTokens then (some .other, adder)
      else adder.addWholeLocked req inputTokens
    | some chunkTokensLimit =>
      if inputTokens ≤ chunkTokensLimit then adder.addWholeLocked req inputTokens
      else adder.addChunkLocked req chunkTokensLimit truncationAlignSize

/-- Try to admit one request. The outer `none` is a failed assertion. -/
def addOneReq (truncationAlignSize : Option ℕ+) :
    Option (AddReqResult × PrefillAdder config tree) :=
  if config.dsaPrefillCpInSeqSplit ∧ 1 ≤ adder.canRunList.length then some (.other, adder)
  else if config.prefillMaxRequests.any fun limit =>
      decide (limit ≤ (adder.canRunList.length : ℤ)) then
    some (.other, adder)
  else if req.ignoreEos ∧ tree.disable then adder.addOneReqIgnoreEos {} req
  else
    let maxNew : ℤ := min (max ((req.maxNewTokens : ℤ) - req.outputLen) 0) config.clipMaxNewTokens
    let candExtendInputLen : ℤ := req.fillLen - req.prefixLen
    let totalTokens := candExtendInputLen + maxNew + config.pageSize
    let realInputTokens := config.ceilPagedTokens candExtendInputLen
    if adder.remTotalTokens ≤ totalTokens then some (.noToken, adder)
    else if adder.remChunkTokens = none ∧ adder.canRunList ≠ [] ∧
        adder.remInputTokens ≤ realInputTokens then
      some (.other, adder)
    else
      let body := (adder.lock req).addOneReqLocked req totalTokens truncationAlignSize
      let adder := body.2.unlock req
      some (body.1.getD (adder.budgetState {}), adder)

/-- A sequence of admission attempts. -/
def addReqs (adder : PrefillAdder config tree) :
    List (CandidateReq tree.Node × Option ℕ+) → Option (PrefillAdder config tree)
  | [] => some adder
  | (req, truncationAlignSize) :: rest =>
    (adder.addOneReq req truncationAlignSize).bind fun answer => answer.2.addReqs rest

/-- The pages `alloc_extend` takes for the admitted requests: the pages their
sequences fill beyond those their prefixes already occupy. -/
def pagesNeeded : ℤ :=
  (adder.canRunList.map fun entry =>
    ceilPages config.pageSize entry.2.stop - ceilPages config.pageSize entry.2.start).sum

/-- The admitted requests fit into the free pages and what is still evictable. -/
def Sound : Prop := adder.pagesNeeded * config.pageSize ≤ adder.availableAndEvictable

instance (adder : PrefillAdder config tree) : Decidable adder.Sound :=
  inferInstanceAs (Decidable (_ ≤ _))

/-! ## What one attempt does -/

/-- An attempt leaves the accounts alone, or it admits one request: the request
is appended with its range, the budgets are charged for at least that range,
and the range passed one of the two budget gates with the locks it leaves. -/
inductive Outcome (before after : PrefillAdder config tree) : Prop
  | rejected : after.availablePages = before.availablePages → after.cache = before.cache →
      after.canRunList = before.canRunList →
      after.remTotalTokenOffset = before.remTotalTokenOffset →
      after.curRemTokenOffset = before.curRemTokenOffset → Outcome before after
  | admitted (req : CandidateReq tree.Node) (range : ExtendRange) (charged maxNewTokens : ℤ) :
      after.availablePages = before.availablePages →
      after.canRunList = before.canRunList ++ [(req, range)] →
      after.remTotalTokenOffset = before.remTotalTokenOffset +
        ((config.ceilPagedTokens charged + maxNewTokens + config.pageSize : ℤ) : ℚ) →
      after.curRemTokenOffset = before.curRemTokenOffset +
        (config.ceilPagedTokens charged + config.pageSize) →
      0 ≤ maxNewTokens → range.length ≤ charged →
      ((config.ceilPagedTokens range.length + 1 : ℤ) <
          after.availableAndEvictable - before.remTotalTokenOffset ∨
        config.ceilPagedTokens range.length ≤
          after.availableAndEvictable - before.curRemTokenOffset) →
      Outcome before after

/-- Rounding up is monotone. -/
theorem ceilPagedTokens_mono (config : AdderConfig) {first second : ℤ} (le : first ≤ second) :
    config.ceilPagedTokens first ≤ config.ceilPagedTokens second :=
  Int.mul_le_mul_of_nonneg_right (ceilPages_mono config.pageSize_pos le) (by omega)

/-- A whole number of pages is its own rounding. -/
theorem ceilPagedTokens_idem (tokens : ℤ) :
    config.ceilPagedTokens (config.ceilPagedTokens tokens) = config.ceilPagedTokens tokens := by
  unfold AdderConfig.ceilPagedTokens
  rw [ceilPages_mul_self config.pageSize_pos]

/-- A chunk is never cut to more than its limit. -/
theorem truncatedLen_le {prefixLen : ℕ}
    (cut : truncatedLen config chunkTokensLimit prefixLen truncationAlignSize = some truncLen) :
    truncLen ≤ chunkTokensLimit := by
  have floor (tokens : ℤ) : tokens / config.pageSize * config.pageSize ≤ tokens :=
    Int.ediv_mul_le tokens (by have := config.pageSize_pos; omega)
  unfold truncatedLen at cut
  dsimp only at cut
  split at cut
  · cases cut
  obtain ⟨aligned, alignedEq, cut⟩ := Option.bind_eq_some_iff.mp cut
  split at cut
  · cases cut
  cases cut
  have alignedLe : aligned ≤ chunkTokensLimit / config.pageSize * config.pageSize := by
    cases truncationAlignSize with
    | none => exact (Option.some.inj alignedEq).ge
    | some size =>
      dsimp only at alignedEq
      split at alignedEq
      · cases alignedEq
      cases alignedEq
      exact Int.mul_ediv_self_le (by have := size.pos; omega)
  have first := floor (aligned + prefixLen)
  have second := floor chunkTokensLimit
  omega

variable {req : CandidateReq tree.Node} {adder before next after : PrefillAdder config tree}
  {result : AddReqResult} {range : ExtendRange}

/-- Committing a request admits it when its range passed a gate. -/
theorem outcome_commitReq {charged maxNewTokens : ℤ}
    (pages : adder.availablePages = before.availablePages)
    (list : adder.canRunList = before.canRunList)
    (total : adder.remTotalTokenOffset = before.remTotalTokenOffset)
    (current : adder.curRemTokenOffset = before.curRemTokenOffset) (nonneg : 0 ≤ maxNewTokens)
    (covers : range.length ≤ charged)
    (fits : (config.ceilPagedTokens range.length + 1 : ℤ) <
        adder.availableAndEvictable - before.remTotalTokenOffset ∨
      config.ceilPagedTokens range.length ≤
        adder.availableAndEvictable - before.curRemTokenOffset) :
    Outcome before (adder.commitReq {} req range charged maxNewTokens) := by
  have gap : ({} : PoolFeatures).mambaGapBudgetForReq req = 0 := rfl
  refine .admitted req range charged maxNewTokens pages ?_ ?_ ?_ nonneg covers fits
  · rw [← list]
    rfl
  · rw [← total, commitReq, gap, updatePrefillBudget]
    simp only [add_zero]
  · rw [← current, commitReq, gap, updatePrefillBudget]
    simp only [add_zero]

/-- A branch that only answers admits nothing. -/
theorem Outcome.of_answer {answer : AddReqResult}
    (ran : some (answer, adder) = some (result, next)) : Outcome adder next := by
  obtain ⟨-, rfl⟩ := Prod.mk.inj (Option.some.inj ran)
  exact .rejected rfl rfl rfl rfl rfl

/-- A whole request is added. -/
theorem addWholeIgnoreEos_outcome
    (fits : config.ceilPagedTokens (req.fillLen - req.prefixLen) ≤ adder.curRemTokens)
    (ran : adder.addWholeIgnoreEos {} req = (result, next)) : Outcome adder next := by
  unfold addWholeIgnoreEos at ran
  split at ran
  · obtain ⟨-, rfl⟩ := Prod.mk.inj ran
    exact .rejected rfl rfl rfl rfl rfl
  · obtain ⟨-, rfl⟩ := Prod.mk.inj ran
    exact outcome_commitReq rfl rfl rfl rfl (by positivity) le_rfl (.inr fits)

/-- So is a chunk. -/
theorem addChunkIgnoreEos_outcome (cut : truncLen ≤ req.fillLen - req.prefixLen)
    (fits : config.ceilPagedTokens (req.fillLen - req.prefixLen) ≤ adder.curRemTokens)
    (ran : adder.addChunkIgnoreEos {} req truncLen = some (result, next)) : Outcome adder next := by
  unfold addChunkIgnoreEos at ran
  split at ran
  · exact .of_answer ran
  · split at ran
    · cases ran
    · obtain ⟨-, rfl⟩ := Prod.mk.inj (Option.some.inj ran)
      have length : (⟨req.prefixLen, req.prefixLen + truncLen⟩ : ExtendRange).length = truncLen :=
        add_sub_cancel_left _ _
      refine outcome_commitReq rfl rfl rfl rfl le_rfl length.le (.inr ?_)
      rw [length]
      exact (ceilPagedTokens_mono config cut).trans fits

/-- The request states are not part of the accounts. -/
theorem Outcome.of_reqStates (states : Option (List (ℚ × ℤ)))
    (outcome : Outcome { before with reqStates := states } after) : Outcome before after := by
  cases outcome with
  | rejected pages cache list total current => exact .rejected pages cache list total current
  | admitted req range charged maxNewTokens pages list total current nonneg covers fits =>
    exact .admitted req range charged maxNewTokens pages list total current nonneg covers fits

/-- The path for requests that ignore end-of-sequence checks the current budget
against the rounded sequence. -/
theorem addOneReqIgnoreEos_outcome
    (ran : adder.addOneReqIgnoreEos {} req = some (result, next)) : Outcome adder next := by
  have gap : ({} : PoolFeatures).mambaGapBudgetForReq req = 0 := rfl
  unfold addOneReqIgnoreEos at ran
  dsimp only at ran
  rw [gap, add_zero, if_neg (by simp : ¬(false = true ∧ _))] at ran
  split at ran
  · exact .of_answer ran
  next gate =>
    have fits : config.ceilPagedTokens (req.fillLen - req.prefixLen) ≤ adder.curRemTokens := by
      rw [not_lt, le_min_iff] at gate
      exact_mod_cast gate.1
    apply Outcome.of_reqStates (some (adder.nextReqStates req))
    split at ran
    · exact .of_answer ran
    · split at ran
      · exact .of_answer ran
      · split at ran
        · exact addWholeIgnoreEos_outcome fits (Option.some.inj ran)
        · split at ran
          · exact addWholeIgnoreEos_outcome fits (Option.some.inj ran)
          next short =>
            split at ran
            · exact .of_answer ran
            · exact addChunkIgnoreEos_outcome (not_le.mp short).le fits ran

/-- Taking the temporary lock and a second one, then releasing the temporary
lock, leaves one lock. -/
theorem unlock_lock_lock (adder : PrefillAdder config tree) (req : CandidateReq tree.Node) :
    ((adder.lock req).lock req).unlock req = adder.lock req := by
  unfold lock unlock
  simp [tree.decLockRef_incLockRef]

/-- A release and a commit commute. -/
theorem unlock_commitReq (adder : PrefillAdder config tree) (req : CandidateReq tree.Node)
    (range : ExtendRange) (charged maxNewTokens : ℤ) :
    (adder.commitReq {} req range charged maxNewTokens).unlock req =
      (adder.unlock req).commitReq {} req range charged maxNewTokens := rfl

/-- A lock that is released. -/
theorem unlock_lock_outcome (adder : PrefillAdder config tree) (req : CandidateReq tree.Node) :
    Outcome adder ((adder.lock req).unlock req) :=
  .rejected rfl (tree.decLockRef_incLockRef _ _) rfl rfl rfl

/-- A whole request under its lock. -/
theorem addWholeLocked_outcome
    (fits : ((config.ceilPagedTokens (req.fillLen - req.prefixLen) + 1 : ℤ) : ℚ) <
      (adder.lock req).availableAndEvictable - adder.remTotalTokenOffset) :
    Outcome adder (((adder.lock req).addWholeLocked req
      (config.ceilPagedTokens (req.fillLen - req.prefixLen))).2.unlock req) := by
  unfold addWholeLocked
  split
  · exact unlock_lock_outcome adder req
  · rw [unlock_commitReq, unlock_lock_lock]
    exact outcome_commitReq rfl rfl rfl rfl (by positivity)
      (le_ceilPages_mul config.pageSize_pos _) (.inl fits)

/-- A chunk under its lock. -/
theorem addChunkLocked_outcome (truncationAlignSize : Option ℕ+)
    (short : chunkTokensLimit < config.ceilPagedTokens (req.fillLen - req.prefixLen))
    (fits : ((config.ceilPagedTokens (req.fillLen - req.prefixLen) + 1 : ℤ) : ℚ) <
      (adder.lock req).availableAndEvictable - adder.remTotalTokenOffset) :
    Outcome adder (((adder.lock req).addChunkLocked req chunkTokensLimit
      truncationAlignSize).2.unlock req) := by
  unfold addChunkLocked
  split
  · exact unlock_lock_outcome adder req
  next truncLen cut =>
    split
    · exact unlock_lock_outcome adder req
    · change Outcome adder ((({ adder with newChunkedReq := some req }.lock req).lock req).commitReq
        {} req ⟨req.prefixLen, req.prefixLen + truncLen⟩ truncLen 0 |>.unlock req)
      rw [unlock_commitReq, unlock_lock_lock]
      have length : (⟨req.prefixLen, req.prefixLen + truncLen⟩ : ExtendRange).length = truncLen :=
        add_sub_cancel_left _ _
      refine outcome_commitReq rfl rfl rfl rfl le_rfl length.le (.inl ?_)
      rw [length]
      refine lt_of_le_of_lt ?_ fits
      have rounded : config.ceilPagedTokens truncLen ≤
          config.ceilPagedTokens (req.fillLen - req.prefixLen) := by
        rw [← ceilPagedTokens_idem (req.fillLen - req.prefixLen : ℤ)]
        exact ceilPagedTokens_mono config ((truncatedLen_le cut).trans short.le)
      exact_mod_cast add_le_add_left rounded 1

/-- What the body under the lock leaves once the temporary lock is released. -/
theorem addOneReqLocked_outcome {totalTokens : ℤ} (truncationAlignSize : Option ℕ+)
    (covers : (req.fillLen : ℤ) - req.prefixLen + config.pageSize ≤ totalTokens) : Outcome adder
      (((adder.lock req).addOneReqLocked req totalTokens truncationAlignSize).2.unlock req) := by
  unfold addOneReqLocked
  split
  · exact unlock_lock_outcome adder req
  next gate =>
    have fits : ((config.ceilPagedTokens (req.fillLen - req.prefixLen) + 1 : ℤ) : ℚ) <
        (adder.lock req).availableAndEvictable - adder.remTotalTokenOffset := by
      refine lt_of_le_of_lt ?_ (not_le.mp gate)
      have rounded := ceilPages_mul_lt config.pageSize_pos ((req.fillLen : ℤ) - req.prefixLen)
      exact_mod_cast Int.add_one_le_iff.mpr rounded |>.trans covers
    split
    · exact unlock_lock_outcome adder req
    · dsimp only
      split
      · split
        · exact unlock_lock_outcome adder req
        · exact addWholeLocked_outcome fits
      · split
        · exact addWholeLocked_outcome fits
        next short => exact addChunkLocked_outcome truncationAlignSize (not_le.mp short) fits

/-- Every attempt that does not fail an assertion is an outcome. -/
theorem addOneReq_outcome (ran : adder.addOneReq req truncationAlignSize = some (result, next)) :
    Outcome adder next := by
  unfold addOneReq at ran
  split at ran
  · exact .of_answer ran
  split at ran
  · exact .of_answer ran
  split at ran
  · exact addOneReqIgnoreEos_outcome ran
  dsimp only at ran
  split at ran
  · exact .of_answer ran
  split at ran
  · exact .of_answer ran
  obtain ⟨-, rfl⟩ := Prod.mk.inj (Option.some.inj ran)
  refine addOneReqLocked_outcome truncationAlignSize ?_
  omega

/-! ## Soundness of whole admission runs -/

/-- The accounts cover what was admitted: the current offset covers the pages
needed, and the total offset exceeds it by at least `offset`. -/
structure Covered (offset : ℚ) (adder : PrefillAdder config tree) : Prop where
  current : adder.pagesNeeded * config.pageSize ≤ adder.curRemTokenOffset
  total : offset + adder.curRemTokenOffset ≤ adder.remTotalTokenOffset
  sound : adder.Sound

/-- They are whole pages. -/
theorem availableAndEvictable_dvd (adder : PrefillAdder config tree) :
    (config.pageSize : ℤ) ∣ adder.availableAndEvictable :=
  Dvd.dvd.add (Dvd.intro_left _ rfl) (tree.evictableSize_dvd _)

/-- The pages of one range, as tokens, are at most its rounded length. -/
theorem ceilPages_range_mul_le (config : AdderConfig) (range : ExtendRange) :
    (ceilPages config.pageSize range.stop - ceilPages config.pageSize range.start) *
      config.pageSize ≤ config.ceilPagedTokens range.length :=
  Int.mul_le_mul_of_nonneg_right
    (ceilPages_sub_le config.pageSize_pos range.start range.stop) (by omega)

/-- Two multiples of the page size less than a page apart are in order. -/
theorem le_of_lt_add_pageSize (config : AdderConfig) {first second : ℤ}
    (left : (config.pageSize : ℤ) ∣ first) (right : (config.pageSize : ℤ) ∣ second)
    (close : first < second + config.pageSize) : first ≤ second := by
  obtain ⟨firstPages, rfl⟩ := left
  obtain ⟨secondPages, rfl⟩ := right
  have positive : (0 : ℤ) < config.pageSize := by exact_mod_cast config.pageSize_pos
  have := lt_of_mul_lt_mul_left (by linarith : (config.pageSize : ℤ) * firstPages <
    config.pageSize * (secondPages + 1)) positive.le
  exact Int.mul_le_mul_of_nonneg_left (by omega) positive.le

/-- A range needs its pages. -/
theorem pagesNeeded_append (list : after.canRunList = before.canRunList ++ [(req, range)]) :
    after.pagesNeeded = before.pagesNeeded +
      (ceilPages config.pageSize range.stop - ceilPages config.pageSize range.start) := by
  unfold pagesNeeded
  rw [list, map_append, sum_append, map_singleton, sum_singleton]

/-- One attempt keeps the accounts covered, as long as the running batch counts
for no less than a page and a token below zero. -/
theorem Covered.step (slack : -((config.pageSize : ℚ) + 1) ≤ offset)
    (outcome : Outcome before after) (covered : Covered offset before) : Covered offset after := by
  obtain ⟨currentBefore, totalBefore, soundBefore⟩ := covered
  cases outcome with
  | rejected pages cache list total current =>
    refine ⟨?_, ?_, ?_⟩
    · rw [pagesNeeded, list, current]
      exact currentBefore
    · rw [total, current]
      exact totalBefore
    · unfold Sound availableAndEvictable availableSize pagesNeeded
      rw [list, pages, cache]
      exact soundBefore
  | admitted req range charged maxNewTokens pages list total current nonneg covers fits =>
    have needed := pagesNeeded_append list
    have pagesLe := ceilPages_range_mul_le config range
    have chargedLe := ceilPagedTokens_mono config covers
    have added : after.pagesNeeded * config.pageSize ≤
        before.curRemTokenOffset + config.ceilPagedTokens range.length := by
      rw [needed, add_mul]
      omega
    refine ⟨?_, ?_, ?_⟩
    · omega
    · rw [total, current]
      push_cast
      have : (0 : ℚ) ≤ maxNewTokens := by exact_mod_cast nonneg
      linarith
    · obtain passedTotal | passedCurrent := fits
      · refine le_of_lt_add_pageSize config (Dvd.intro_left _ rfl)
          after.availableAndEvictable_dvd ?_
        have addedRat : ((after.pagesNeeded * config.pageSize : ℤ) : ℚ) ≤
            before.curRemTokenOffset + config.ceilPagedTokens range.length := by
          exact_mod_cast added
        have : ((after.pagesNeeded * config.pageSize : ℤ) : ℚ) <
            ((after.availableAndEvictable + config.pageSize : ℤ) : ℚ) := by
          push_cast at passedTotal addedRat ⊢
          linarith
        exact_mod_cast this
      · unfold Sound
        omega

/-- At the start nothing is needed. -/
theorem covered_init (config : AdderConfig) (tree : LockableCache config.pageSize)
    (availablePages : ℕ) (cache : tree.Cache) (remInputTokens : ℤ) (remChunkTokens : Option ℤ) :
    Covered config.runningOffset
      (init config tree availablePages cache remInputTokens remChunkTokens 0) := by
  refine ⟨?_, ?_, ?_⟩
  · simp [pagesNeeded, init]
  · simp [init]
  · have evictable := tree.evictableSize_nonneg cache
    have available : (0 : ℤ) ≤ availablePages * config.pageSize := by positivity
    simpa [Sound, pagesNeeded, init, availableAndEvictable, availableSize] using
      add_nonneg available evictable

/-- Any sequence of attempts keeps the accounts covered. -/
theorem Covered.addReqs {reqs : List (CandidateReq tree.Node × Option ℕ+)}
    (slack : -((config.pageSize : ℚ) + 1) ≤ offset) (covered : Covered offset before)
    (ran : before.addReqs reqs = some after) : Covered offset after := by
  induction reqs generalizing before with
  | nil =>
    cases ran
    exact covered
  | cons entry rest ih =>
    obtain ⟨⟨result, next⟩, first, later⟩ := Option.bind_eq_some_iff.mp ran
    exact ih (covered.step slack (addOneReq_outcome first)) later

end PrefillAdder

/-- A cache with nothing in it. -/
def emptyCache (pageSize : ℕ) : LockableCache pageSize :=
  { Cache := Unit
    Node := Unit
    disable := false
    evictableSize := fun _ => 0
    incLockRef := fun cache _ => cache
    decLockRef := fun cache _ => cache
    decLockRef_incLockRef := fun _ _ => rfl
    evictableSize_nonneg := fun _ => le_rfl
    evictableSize_dvd := fun _ => dvd_zero _ }

/-- A running batch whose requests are each one token past their limit. -/
def overshotConfig (pageSize : ℕ) (positive : 0 < pageSize) (offset : ℚ) : AdderConfig :=
  { pageSize := pageSize
    pageSize_pos := positive
    newTokenRatio := -offset / ⌈-offset⌉₊
    runningBatch := some (replicate ⌈-offset⌉₊
      { originInputLen := 1, outputLen := 1, maxNewTokens := 0 }) }

variable {pageSize : ℕ} (positive : 0 < pageSize)

/-- The running offset. -/
theorem overshotConfig_runningOffset (negative : offset < 0) :
    (overshotConfig pageSize positive offset).runningOffset = offset := by
  have count : (⌈-offset⌉₊ : ℚ) ≠ 0 := by
    have := Nat.ceil_pos.mpr (neg_pos.mpr negative)
    positivity
  simp only [AdderConfig.runningOffset, AdderConfig.getRunningRequestTotalTokenOffset,
    overshotConfig, Option.getD_some, map_replicate]
  norm_num
  field_simp

/-- A request of one token, which needs one page. -/
def oneTokenReq : CandidateReq Unit :=
  { originInputLen := 1, outputLen := 0, maxNewTokens := 0, fillLen := 1, prefixLen := 0,
    lastNode := () }

/-- The adder of an empty pool that is offered the request as one chunk. -/
def overshotAdder {pageSize : ℕ} (positive : 0 < pageSize) (offset : ℚ) :
    PrefillAdder (overshotConfig pageSize positive offset)
      (emptyCache (overshotConfig pageSize positive offset).pageSize) :=
  PrefillAdder.init _ _ 0 () 0 (some pageSize) 0

/-- What then remains. -/
theorem overshotAdder_remTotalTokens (negative : offset < 0) :
    (overshotAdder positive offset).remTotalTokens = -offset := by
  simp [overshotAdder, PrefillAdder.remTotalTokens, PrefillAdder.init,
    PrefillAdder.availableAndEvictable, PrefillAdder.availableSize, emptyCache,
    overshotConfig_runningOffset positive negative]

/-- With an initial offset of less than minus a page and a token, the empty pool
admits the request. -/
theorem addReqs_overshotAdder (below : offset < -((pageSize : ℚ) + 1)) :
    (overshotAdder positive offset).addReqs [(oneTokenReq, none)] =
      some ((overshotAdder positive offset).commitReq {} oneTokenReq ⟨0, 1⟩ pageSize 0) := by
  have negative : offset < 0 := by linarith
  have gate : ¬ (overshotAdder positive offset).remTotalTokens ≤
      (((1 : ℕ) - (0 : ℕ) + 0 + pageSize : ℤ) : ℚ) := by
    rw [overshotAdder_remTotalTokens positive negative]
    push_cast
    linarith
  have input : (overshotConfig pageSize positive offset).ceilPagedTokens ((1 : ℕ) - (0 : ℕ)) =
      pageSize := by
    unfold AdderConfig.ceilPagedTokens
    rw [Nat.cast_one, Nat.cast_zero, sub_zero, ceilPages_one (overshotConfig ..).pageSize_pos,
      one_mul]
    rfl
  have locked : (overshotAdder positive offset).addOneReqLocked oneTokenReq
      ((1 : ℕ) - (0 : ℕ) + 0 + pageSize) none =
      (none, (overshotAdder positive offset).commitReq {} oneTokenReq ⟨0, 1⟩ pageSize 0) := by
    unfold PrefillAdder.addOneReqLocked
    rw [if_neg gate]
    simp only [oneTokenReq, input]
    exact if_pos le_rfl
  have answered : ((overshotAdder positive offset).addOneReq oneTokenReq none).map Prod.snd =
      some ((overshotAdder positive offset).commitReq {} oneTokenReq ⟨0, 1⟩ pageSize 0) := by
    refine (congrArg (Option.map Prod.snd) ((if_neg gate).trans (if_neg ?_))).trans ?_
    · simp [overshotAdder, PrefillAdder.init]
    · exact congrArg (fun body => some body.2) locked
  obtain ⟨⟨result, next⟩, ran, rfl⟩ := Option.map_eq_some_iff.mp answered
  unfold PrefillAdder.addReqs
  rw [ran]
  rfl

/-- Pages of one token and one running request that has decoded `outputLen` of
its five tokens. -/
def decodingConfig (outputLen : ℕ) : AdderConfig :=
  { pageSize := 1
    pageSize_pos := Nat.one_pos
    runningBatch := some [{ originInputLen := 4, outputLen := outputLen, maxNewTokens := 5 }] }

/-- A request of eleven tokens without a cached prefix. -/
def elevenTokenReq : CandidateReq Unit :=
  { originInputLen := 11, outputLen := 0, maxNewTokens := 0, fillLen := 11, prefixLen := 0,
    lastNode := () }

/-- A cache with one leaf of four tokens, which a lock takes from the evictable ones. -/
def oneLeafCache : LockableCache (decodingConfig 2).pageSize :=
  { Cache := ℕ
    Node := Unit
    disable := false
    evictableSize := fun locks => if locks = 0 then 4 else 0
    incLockRef := fun locks _ => locks + 1
    decLockRef := fun locks _ => locks - 1
    decLockRef_incLockRef := fun _ _ => rfl
    evictableSize_nonneg := fun locks => by split <;> decide
    evictableSize_dvd := fun _ => one_dvd _ }

namespace PrefillAdder

variable {config : AdderConfig} {tree : LockableCache config.pageSize}
  {adder next : PrefillAdder config tree} {req : CandidateReq tree.Node} {result : AddReqResult}
  {states : List (ℚ × ℤ)} {entry : ℚ × ℤ} {seen : List ReqLengths}

/-- No entry finishes before an earlier one. -/
def InFinishOrder (states : List (ℚ × ℤ)) : Prop :=
  states.Pairwise fun first second => first.1 ≤ second.1

/-- The scan stops at the first entry that does not finish earlier, and at the last entry
otherwise. -/
theorem insertReqState_cons (first : ℚ × ℤ) (rest : List (ℚ × ℤ)) (entry : ℚ × ℤ) :
    insertReqState (first :: rest) entry =
      if entry.1 ≤ first.1 ∨ rest = [] then entry :: first :: rest
      else first :: insertReqState rest entry := by
  by_cases early : entry.1 ≤ first.1
  · simp [insertReqState, findIdx?_cons, early]
  · cases rest with
    | nil => simp [insertReqState, early]
    | cons second rest =>
      rw [if_neg (by simp [early])]
      unfold insertReqState
      rw [findIdx?_cons, if_neg (by simpa using early)]
      cases findIdx? (fun other => decide (entry.1 ≤ other.1)) (second :: rest) <;> rfl

/-- The entry is inserted. -/
theorem perm_insertReqState (states : List (ℚ × ℤ)) (entry : ℚ × ℤ) :
    (insertReqState states entry).Perm (entry :: states) := by
  induction states with
  | nil => exact .refl _
  | cons first rest ih =>
    rw [insertReqState_cons]
    split
    · exact .refl _
    · exact (ih.cons first).trans (.swap entry first rest)

/-- Insertion keeps the order exactly when the request does not finish last. -/
theorem inFinishOrder_insertReqState (ordered : InFinishOrder states) :
    InFinishOrder (insertReqState states entry) ↔ ∀ last ∈ states.getLast?, entry.1 ≤ last.1 := by
  induction states with
  | nil => simp [insertReqState, InFinishOrder]
  | cons first rest ih =>
    obtain ⟨before, orderedRest⟩ := pairwise_cons.mp ordered
    rw [insertReqState_cons]
    by_cases early : entry.1 ≤ first.1
    · rw [if_pos (.inl early)]
      refine iff_of_true ?_ fun last found => ?_
      · refine pairwise_cons.mpr ⟨fun other member => ?_, ordered⟩
        rcases mem_cons.mp member with rfl | member
        · exact early
        · exact early.trans (before other member)
      · rcases mem_cons.mp (mem_of_getLast? found) with rfl | member
        · exact early
        · exact early.trans (before last member)
    · cases rest with
      | nil => simp [InFinishOrder]
      | cons second rest =>
        have after : ∀ other ∈ insertReqState (second :: rest) entry, first.1 ≤ other.1 := by
          intro other member
          rcases mem_cons.mp ((perm_insertReqState _ _).mem_iff.mp member) with rfl | member
          · exact (not_le.mp early).le
          · exact before other member
        rw [if_neg (by simp [early]), getLast?_cons_cons, ← ih orderedRest]
        exact pairwise_cons.trans (and_iff_right after)

variable (features : PoolFeatures)

/-- A call looks at the schedule when its tokens pass the first gates. -/
def considers (adder : PrefillAdder config tree) (req : CandidateReq tree.Node) : Prop :=
  ((config.ceilPagedTokens (req.fillLen - req.prefixLen) +
      features.mambaGapBudgetForReq req : ℤ) : ℚ) ≤ min (adder.curRemTokens : ℚ)
        adder.remTotalTokens ∧
    (features.isHybridSwa = true →
      adder.swaBudgetForReq features (req.fillLen - req.prefixLen)
        (swaNewTokens config req.toReqLengths) ≤ adder.remSwaTokens features)

instance (adder : PrefillAdder config tree) (req : CandidateReq tree.Node) :
    Decidable (adder.considers features req) :=
  inferInstanceAs (Decidable (_ ∧ _))

/-- A call that passes the first gates leaves the schedule it looked at, whatever it answers. -/
theorem reqStates_addOneReqIgnoreEos
    (ran : adder.addOneReqIgnoreEos features req = some (result, next)) :
    next.reqStates = if adder.considers features req then some (adder.nextReqStates req)
      else adder.reqStates := by
  unfold addOneReqIgnoreEos addWholeIgnoreEos addChunkIgnoreEos addDllmIgnoreEos at ran
  dsimp only at ran
  split at ran
  next gate =>
    cases ran
    exact (if_neg fun considered => not_le.mpr gate considered.1).symm
  next gate =>
    split at ran
    next small =>
      cases ran
      exact (if_neg fun considered => not_le.mpr small.2 (considered.2 small.1)).symm
    next large =>
      have considered : adder.considers features req :=
        ⟨not_lt.mp gate, fun hybrid => not_lt.mp fun small => large ⟨hybrid, small⟩⟩
      rw [if_pos considered]
      repeat' split at ran
      all_goals
        cases ran
        try rfl

/-- The requests that the schedule accounts for after a call, from those before it. -/
def consideredAfter (adder : PrefillAdder config tree) (req : CandidateReq tree.Node)
    (seen : List ReqLengths) : List ReqLengths :=
  if adder.considers features req then
    match adder.reqStates with
    | none => req.toReqLengths :: config.runningBatch.getD [] ++
        adder.canRunList.map (fun entry => entry.1.toReqLengths)
    | some _ => req.toReqLengths :: seen
  else seen

/-- The adders after each call of a sequence, with the requests considered so far. The
sequence ends with a failed assertion. -/
def ignoreEosRun (adder : PrefillAdder config tree) (seen : List ReqLengths) :
    List (CandidateReq tree.Node) → List (PrefillAdder config tree × List ReqLengths)
  | [] => []
  | req :: rest =>
    match adder.addOneReqIgnoreEos features req with
    | none => []
    | some (_, next) => (next, adder.consideredAfter features req seen) ::
        next.ignoreEosRun (adder.consideredAfter features req seen) rest

/-- The schedule is in order and has one entry for each considered request that has tokens
left. -/
def Scheduled (adder : PrefillAdder config tree) (seen : List ReqLengths) : Prop :=
  ∀ states ∈ adder.reqStates, InFinishOrder states ∧ states.Perm (seen.filterMap (reqState config))

/-- The request of a call does not finish after all requests of the schedule. -/
def FinishesInside (adder : PrefillAdder config tree) (req : CandidateReq tree.Node) : Prop :=
  adder.considers features req → ∀ states ∈ adder.reqStates,
    ∀ entry ∈ reqState config req.toReqLengths, ∀ last ∈ states.getLast?, entry.1 ≤ last.1

/-- Every request of a run does so. -/
def AllFinishInside (adder : PrefillAdder config tree) : List (CandidateReq tree.Node) → Prop
  | [] => True
  | req :: rest => ∀ answer ∈ adder.addOneReqIgnoreEos features req,
      adder.FinishesInside features req ∧ answer.2.AllFinishInside rest

/-- One call keeps the schedule exactly when its request finishes inside it. -/
theorem Scheduled.step_iff (scheduled : Scheduled adder seen)
    (ran : adder.addOneReqIgnoreEos features req = some (result, next)) :
    Scheduled next (adder.consideredAfter features req seen) ↔
      adder.FinishesInside features req := by
  have states := reqStates_addOneReqIgnoreEos features ran
  unfold Scheduled FinishesInside consideredAfter
  by_cases considered : adder.considers features req
  · rw [states, if_pos considered, if_pos considered]
    simp only [considered, forall_const, Option.mem_def, Option.some.injEq, forall_eq']
    unfold nextReqStates
    cases schedule : adder.reqStates with
    | none =>
      refine iff_of_true ⟨?_, perm_insertionSort _ _⟩ nofun
      exact pairwise_insertionSort _ _
    | some states =>
      obtain ⟨ordered, same⟩ := scheduled states schedule
      cases left : reqState config req.toReqLengths with
      | none =>
        refine iff_of_true ⟨ordered, ?_⟩ nofun
        rwa [filterMap_cons_none left]
      | some entry =>
        have entries := (perm_insertReqState states entry).trans (same.cons entry)
        simp only [filterMap_cons, left, Option.some.injEq, forall_eq']
        rw [inFinishOrder_insertReqState ordered]
        exact and_iff_left entries
  · rw [states, if_neg considered, if_neg considered]
    exact iff_of_true scheduled fun absurd => (considered absurd).elim

/-- A run keeps the schedule exactly when every request finishes inside the schedule that
its call found. -/
theorem Scheduled.run_iff (scheduled : Scheduled adder seen)
    (reqs : List (CandidateReq tree.Node)) :
    (∀ state ∈ adder.ignoreEosRun features seen reqs, Scheduled state.1 state.2) ↔
      adder.AllFinishInside features reqs := by
  induction reqs generalizing adder seen with
  | nil => exact iff_of_true (forall_mem_nil _) trivial
  | cons req rest ih =>
    unfold ignoreEosRun AllFinishInside
    cases ran : adder.addOneReqIgnoreEos features req with
    | none => exact iff_of_true (forall_mem_nil _) (by simp)
    | some answer =>
      simp only [forall_mem_cons, Option.mem_def, Option.some.injEq, forall_eq']
      rw [← scheduled.step_iff features ran]
      exact and_congr_right ih

end PrefillAdder

/-- A disabled cache. -/
def disabledCache : LockableCache 1 := { emptyCache 1 with disable := true }

/-- A request that ignores end-of-sequence and decodes `maxNewTokens` tokens. -/
def decodingReq (maxNewTokens : ℕ) : CandidateReq disabledCache.Node :=
  { originInputLen := 1, outputLen := 0, maxNewTokens := maxNewTokens, ignoreEos := true,
    fillLen := 1, prefixLen := 0, lastNode := () }

/-- An adder over a hundred free pages of one token and a disabled tree cache. -/
def roomyAdder : PrefillAdder { pageSize := 1, pageSize_pos := Nat.one_pos } disabledCache :=
  PrefillAdder.init _ _ 100 () 64 none 0

end AvaServe.Scheduler

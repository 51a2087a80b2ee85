import Mathlib
import AvaServe.Foundation.RecencyList

/-!
# The n-gram trie

Draft tokens are proposed from a trie of the token windows seen so far. The nodes
come from a pool of fixed size; when a window could need more nodes than are free,
nodes are taken from the back of one list that holds all nodes in the order of last
use. A node is named by its index in the pool, which stands for its address.
-/

namespace AvaServe.Ngram

open AvaServe.Foundation

/-- A node; `parent` is `none` for a null pointer. The positions a node keeps in the
lists of its parent and of the trie are found by its name. -/
structure TrieNode where
  child : Finmap fun _ : ℤ => ℕ := ∅
  token : ℤ := 0
  parent : Option ℕ := none
  lru : List ℕ := []
  freq : Int32 := 0
  version : UInt64 := 1
  sortedChildren : List ℕ := []

/-- The two exceptions of `squeeze`, and a read outside an array or a list. -/
inductive TrieError
  | insufficient (available required : ℕ)
  | hasChildren
  | outOfBounds
deriving DecidableEq, Repr

/-- `pool` is the part of `node_pool_` below `free_node_count_`, the top first.
`evicted` counts the nodes squeezed out since the last reset; the code does not read
it. -/
structure Trie where
  capacity : ℕ
  maxTrieDepth : ℕ
  node : ℕ → TrieNode
  pool : List ℕ
  globalLru : List ℕ
  root : ℕ
  trieEpoch : UInt64
  evicted : ℕ

namespace Trie

variable (trie : Trie)

/-- Change one node. -/
def modifyNode (id : ℕ) (change : TrieNode → TrieNode) : Trie :=
  { trie with node := Function.update trie.node id (change (trie.node id)) }

/-- `CompareByFreq`: the more frequent child first, then the smaller token, then the
smaller address. -/
def compareByFreq (a b : ℕ) : Bool :=
  decide ((trie.node b).freq < (trie.node a).freq) ||
    decide ((trie.node b).freq = (trie.node a).freq) &&
      (decide ((trie.node a).token < (trie.node b).token) ||
        decide ((trie.node a).token = (trie.node b).token) && decide (a < b))

/-- Insertion into `sorted_children`: before the first element that is greater. -/
def sortedInsert (id : ℕ) (children : List ℕ) : List ℕ :=
  children.takeWhile (fun other => !trie.compareByFreq id other) ++
    id :: children.dropWhile (fun other => !trie.compareByFreq id other)

/-- Removal of the elements of `sorted_children` that compare equal to a node. -/
def sortedErase (id : ℕ) (children : List ℕ) : List ℕ :=
  children.filter fun other => trie.compareByFreq id other || trie.compareByFreq other id

/-- Take a node from the pool; it keeps its version only. -/
def getNode : Except TrieError (ℕ × Trie) :=
  match trie.pool with
  | [] => throw .outOfBounds
  | id :: rest =>
    pure (id, { trie with pool := rest }.modifyNode id fun node => { version := node.version })

/-- `retireNode`. -/
def retireNode (id : ℕ) : Trie :=
  trie.modifyNode id fun node => { node with version := node.version + 1 }

/-- All nodes go back to the pool and one of them becomes the root. -/
def fill : Except TrieError Trie := do
  let (root, trie) ← { trie with pool := (List.range trie.capacity).reverse }.getNode
  pure { trie with root := root }

/-- The constructor. -/
def new (capacity maxTrieDepth : ℕ) : Except TrieError Trie :=
  fill
    { capacity := capacity
      maxTrieDepth := maxTrieDepth
      node := fun _ => {}
      pool := []
      globalLru := []
      root := 0
      trieEpoch := 1
      evicted := 0 }

/-- `reset`. -/
def reset : Except TrieError Trie :=
  fill { trie with trieEpoch := trie.trieEpoch + 1, globalLru := [], evicted := 0 }

/-- Append a node to the list of all nodes. -/
def enqueue (id : ℕ) : Trie := { trie with globalLru := trie.globalLru ++ [id] }

/-- Fill a node from the pool as the child of `cursor` under `token`. -/
def file (cursor id : ℕ) (token : ℤ) : Trie :=
  ((trie.modifyNode cursor fun node =>
    { node with child := node.child.insert token id, lru := id :: node.lru }).enqueue id).modifyNode
      id fun node => { node with token := token, parent := some cursor, freq := 1 }

/-- The branch of `insert` for a token `cursor` has no child for. -/
def link (cursor id : ℕ) (token : ℤ) : Trie :=
  let trie := trie.file cursor id token
  trie.modifyNode cursor fun node =>
    { node with sortedChildren := trie.sortedInsert id node.sortedChildren }

/-- Raise the frequency of a child of `cursor`, which leaves the sorted children for it. -/
def recount (cursor id : ℕ) : Trie :=
  (trie.modifyNode cursor fun node =>
    { node with sortedChildren := trie.sortedErase id node.sortedChildren }).modifyNode
      id fun node => { node with freq := node.freq + 1 }

/-- The branch of `insert` for a token `cursor` has the child `id` for. -/
def touch (cursor id : ℕ) : Trie :=
  let trie := trie.recount cursor id
  trie.modifyNode cursor fun node =>
    { node with
      sortedChildren := trie.sortedInsert id node.sortedChildren
      lru := moveToFront id node.lru }

/-- One round of the inner loop of `insert`. -/
def advance (cursor : ℕ) (token : ℤ) : Except TrieError (ℕ × Trie) :=
  match (trie.node cursor).child.lookup token with
  | none => do
      let (id, trie) ← trie.getNode
      pure (id, trie.link cursor id token)
  | some id => pure (id, trie.touch cursor id)

/-- The inner loop of `insert`, with the nodes it passes. -/
def walk (trie : Trie) (cursor : ℕ) : List ℤ → Except TrieError (Trie × List ℕ)
  | [] => pure (trie, [])
  | token :: rest => do
      let (next, trie) ← trie.advance cursor token
      let (trie, path) ← trie.walk next rest
      pure (trie, next :: path)

/-- Take a childless node out of its parent and put it back into the pool. -/
def release (last : ℕ) : Except TrieError Trie :=
  if (trie.node last).child = ∅ then
    match (trie.node last).parent with
    | none => throw .outOfBounds
    | some above =>
      let trie := trie.modifyNode above fun node =>
        { node with
          lru := node.lru.erase last
          sortedChildren := trie.sortedErase last node.sortedChildren
          child := node.child.erase (trie.node last).token }
      pure { trie.retireNode last with pool := last :: trie.pool, evicted := trie.evicted + 1 }
  else
    throw .hasChildren

/-- The loop of `squeeze`. -/
def squeezeLoop (trie : Trie) : ℕ → Except TrieError Trie
  | 0 => pure trie
  | count + 1 =>
    match trie.globalLru.getLast? with
    | none => throw .outOfBounds
    | some last => do
        let trie ← { trie with globalLru := trie.globalLru.dropLast }.release last
        trie.squeezeLoop count

/-- `squeeze`. -/
def squeeze (count : ℕ) : Except TrieError Trie :=
  if trie.pool.length + count ≤ trie.capacity then
    trie.squeezeLoop count
  else
    throw (.insufficient (trie.capacity - trie.pool.length) count)

/-- Squeeze when fewer nodes are free than a window could need. -/
def makeRoom (needed : ℕ) : Except TrieError Trie :=
  if trie.pool.length < needed then trie.squeeze (needed - trie.pool.length) else pure trie

/-- Splice the nodes of a path to the front of the list of all nodes, the last one first. -/
def promote (path : List ℕ) : Trie :=
  { trie with globalLru := path.foldr moveToFront trie.globalLru }

/-- One round of the outer loop of `insert`: the window that starts at one token. -/
def insertWindow (window : List ℤ) : Except TrieError Trie := do
  let trie ← trie.makeRoom window.length
  let (trie, path) ← trie.walk trie.root window
  pure (trie.promote path)

/-- The windows `[start, end)` of a sequence, one for each start. -/
def windows (depth : ℕ) (tokens : List ℤ) : List (List ℤ) :=
  (List.range tokens.length).map fun i => (tokens.drop i).take (min (tokens.length - i) depth)

/-- `insert`. -/
def insert (tokens : List ℤ) : Except TrieError Trie :=
  (windows trie.maxTrieDepth tokens).foldlM insertWindow trie

/-- The child maps followed from a node. -/
def find (trie : Trie) (cursor : ℕ) : List ℤ → Option ℕ
  | [] => some cursor
  | token :: rest => ((trie.node cursor).child.lookup token).bind fun next => trie.find next rest

end Trie

/-- The calls that change a trie. -/
inductive TrieCall
  | insert (tokens : List ℤ)
  | reset
deriving DecidableEq, Repr

namespace Trie

/-- One call. -/
def call (trie : Trie) : TrieCall → Except TrieError Trie
  | .insert tokens => trie.insert tokens
  | .reset => trie.reset

/-- A trie after some calls. -/
def run (capacity maxTrieDepth : ℕ) (calls : List TrieCall) : Except TrieError Trie := do
  let trie ← new capacity maxTrieDepth
  calls.foldlM call trie

/-- The sequences a trie was given, after one more call. -/
def record (sequences : List (List ℤ)) : TrieCall → List (List ℤ)
  | .insert tokens => sequences ++ [tokens]
  | .reset => []

/-- The sequences inserted since the last reset. -/
def inserted (calls : List TrieCall) : List (List ℤ) := calls.foldl record []

end Trie

end AvaServe.Ngram

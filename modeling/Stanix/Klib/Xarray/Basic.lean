import Stanix.Base.Exec
import Mathlib.Data.Finset.Insert
import Mathlib.Algebra.Order.Ring.Nat

/-!
# The sparse array of `xarray.c`

A tree of nodes with 64 entries each. An entry is one word: NULL, a value, or the address of a node
with the lowest bit set. The node of shift `s` takes its entry from the bits `s` to `s + 5` of an
index, so the entries of a node of shift `0` are values. The memory is the set of live node
addresses with the node at each address; `fresh` stands for `slab_alloc` on the slab of nodes, which
answers an address that is not live, and the constructor of the slab zeroes the node there. The lock
and the rcu sections are left out: calls run one after the other. `fuel` bounds every loop.
-/

namespace Stanix

open Function

/-- A node. Source: `xarray_node_t` (`xarray.h:10`). -/
structure XarrayNode where
  shift : Nat
  fullMask : BitVec 64
  entries : Nat → Nat

/-- The node the constructor leaves. Source: `xarray_entry_constructor` (`xarray.c:8`). -/
def XarrayNode.zero : XarrayNode := ⟨0, 0, fun _ => 0⟩

/-- An array and the memory of its nodes. Source: `xarray_t` (`xarray.h:16`). -/
structure Xarray where
  root : Nat
  live : Finset Nat
  node : Nat → XarrayNode

/-- Where a word of the tree is stored: `rcu_ptr_t *`. -/
inductive XarraySlot
  | root
  | entry (node i : Nat)

namespace Xarray

/-- Access to the node at an address. -/
def deref (x : Xarray) (a : Nat) : Exec XarrayNode :=
  if a ∈ x.live then .ok (x.node a) else .error .null

/-- Write the node at an address. -/
def setNode (x : Xarray) (a : Nat) (nd : XarrayNode) : Xarray :=
  { x with node := update x.node a nd }

/-- Source: `xarray_entry_fetch` (`xarray.c:15`). -/
def fetch (x : Xarray) : XarraySlot → Nat
  | .root => x.root
  | .entry a i => (x.node a).entries i

/-- Source: `xarray_entry_store` (`xarray.c:19`). -/
def store (x : Xarray) (slot : XarraySlot) (w : Nat) : Xarray :=
  match slot with
  | .root => { x with root := w }
  | .entry a i =>
    x.setNode a { x.node a with entries := update (x.node a).entries i w }

/-- Set the mask of the node at an address. -/
def setMask (x : Xarray) (a : Nat) (mask : BitVec 64) : Xarray :=
  x.setNode a { x.node a with fullMask := mask }

/-- `slab_alloc(&xarray_nodes_slab)`: the address of a node that is all zero. -/
def slabAlloc (fresh : Finset Nat → Nat) (x : Xarray) : Nat × Xarray :=
  let a := fresh x.live
  (a, { x with live := insert a x.live, node := update x.node a .zero })

end Xarray

/-- Source: `xarray_entry_get_node` (`xarray.c:27`). -/
def xarrayEntryGetNode (entry : Nat) : Nat := entry - (entry &&& 1)

/-- Source: `xarray_entry_is_node` (`xarray.c:31`). -/
def xarrayEntryIsNode (entry : Nat) : Bool := entry &&& 1 ≠ 0

/-- Source: `xarray_entry_is_value` (`xarray.c:35`). -/
def xarrayEntryIsValue (entry : Nat) : Bool := !xarrayEntryIsNode entry

/-- Source: `xarray_entry_from_node` (`xarray.c:43`). -/
def xarrayEntryFromNode (node : Nat) : Nat := node ||| 1

/-- Source: `xarray_node_get_local_index` (`xarray.c:70`). -/
def xarrayNodeGetLocalIndex (nd : XarrayNode) (index : Nat) : Nat := (index >>> nd.shift) &&& 63

/-- Source: `xarray_is_in_bound` (`xarray.c:79`). -/
def xarrayIsInBound (x : Xarray) (entry index : Nat) : Exec Bool :=
  if entry = 0 then .ok (index < 1)
  else if xarrayEntryIsValue entry then .ok (index < 1)
  else do
    let nd ← x.deref (xarrayEntryGetNode entry)
    return index < 2 ^ (nd.shift + 6) % 2 ^ 64

/-! ## Lookup -/

/-- The loop of `xarray_raw_get` (`xarray.c:101`). -/
def xarrayGetLoop (x : Xarray) (index : Nat) : Nat → Nat → Exec Nat
  | 0, _ => .error .fuel
  | fuel + 1, entry =>
    if entry = 0 then .ok 0
    else if xarrayEntryIsValue entry then .ok entry
    else do
      let nd ← x.deref (xarrayEntryGetNode entry)
      xarrayGetLoop x index fuel (nd.entries (xarrayNodeGetLocalIndex nd index))

/-- Source: `xarray_raw_get` (`xarray.c:95`), `xarray_get` (`xarray.c:113`). -/
def xarrayGet (fuel : Nat) (x : Xarray) (index : Nat) : Exec Nat := do
  if ← xarrayIsInBound x x.root index then xarrayGetLoop x index fuel x.root
  else return 0

/-! ## Assignment -/

/-- The loop of `xarray_raw_set` that finds the shift to grow to (`xarray.c:143`). -/
def xarrayTargetShift (index : Nat) : Nat → Nat → Exec Nat
  | 0, _ => .error .fuel
  | fuel + 1, targetShift =>
    if index ≥ 2 ^ targetShift % 2 ^ 64 then xarrayTargetShift index fuel (targetShift + 6)
    else .ok targetShift

variable (fresh : Finset Nat → Nat)

/-- The loop of `xarray_raw_set` that puts nodes over the root (`xarray.c:151`), with the entry of
the last one. -/
def xarrayGrow (targetShift : Nat) : Nat → Xarray → Nat → Nat → Bool → Exec (Nat × Xarray)
  | 0, _, _, _, _ => .error .fuel
  | fuel + 1, x, entry, currentShift, previousIsFull =>
    if currentShift < targetShift then
      let (a, x) := x.slabAlloc fresh
      let nd := x.node a
      let x := x.setNode a
        { shift := currentShift
          entries := update nd.entries 0 entry
          fullMask := if previousIsFull then 1 else 0 }
      xarrayGrow targetShift fuel x (xarrayEntryFromNode a) (currentShift + 6) false
    else .ok (entry, x)

/-- Where the way down of `xarray_raw_set` ends: a NULL entry or a value. -/
structure XarrayPath where
  slot : XarraySlot
  entry : Nat
  shift : Nat
  /-- The nodes gone through, the last one first. -/
  parents : List Nat

/-- The loop of `xarray_raw_set` that goes down to an index (`xarray.c:168`). It records the nodes
on the way of a value and clears the mask bits on the way of a NULL. -/
def xarrayDescend (index value : Nat) : Nat → Xarray → XarrayPath → Exec (XarrayPath × Xarray)
  | 0, _, _ => .error .fuel
  | fuel + 1, x, path =>
    if path.entry = 0 then .ok (path, x)
    else if xarrayEntryIsValue path.entry then .ok (path, x)
    else do
      let a := xarrayEntryGetNode path.entry
      let nd ← x.deref a
      let i := xarrayNodeGetLocalIndex nd index
      if value ≠ 0 then
        -- `parents` has room for 12 nodes
        if path.parents.length < 12 then
          xarrayDescend index value fuel x ⟨.entry a i, nd.entries i, nd.shift, a :: path.parents⟩
        else .error .bounds
      else
        let x := x.setMask a (nd.fullMask &&& ~~~BitVec.twoPow 64 i)
        xarrayDescend index value fuel x ⟨.entry a i, nd.entries i, nd.shift, path.parents⟩

/-- The loop of `xarray_raw_set` that sets the mask bits over a value (`xarray.c:173`). -/
def xarrayBacktrack (index : Nat) : List Nat → Xarray → Exec Xarray
  | [], x => .ok x
  | a :: parents, x => do
    let nd ← x.deref a
    let mask := nd.fullMask ||| BitVec.twoPow 64 (xarrayNodeGetLocalIndex nd index)
    let x := x.setMask a mask
    if mask ≠ BitVec.allOnes 64 then return x
    else xarrayBacktrack index parents x

/-- The loop of `xarray_raw_set` that adds nodes below a NULL entry (`xarray.c:202`). Every new node
gets the mask bit of the index, whether the node below it is full or not. -/
def xarrayFill (index value : Nat) : Nat → Xarray → XarraySlot → Nat → Exec Xarray
  | 0, _, _, _ => .error .fuel
  | fuel + 1, x, slot, currentShift =>
    if currentShift ≥ 6 then
      let currentShift := currentShift - 6
      let (a, x) := x.slabAlloc fresh
      let nd := { x.node a with shift := currentShift }
      let i := xarrayNodeGetLocalIndex nd index
      let x := x.setNode a { nd with fullMask := nd.fullMask ||| BitVec.twoPow 64 i }
      let x := x.store slot (xarrayEntryFromNode a)
      xarrayFill index value fuel x (.entry a i) currentShift
    else .ok (x.store slot value)

/-- The part of `xarray_raw_set` after the array has grown (`xarray.c:163`). -/
def xarraySetInBound (fuel : Nat) (x : Xarray) (index value : Nat) : Exec (Nat × Xarray) := do
  let (path, x) ← xarrayDescend index value fuel x ⟨.root, x.root, 0, []⟩
  if path.entry ≠ 0 then
    let x := x.store path.slot value
    if value = 0 then return (path.entry, x)
    else return (path.entry, ← xarrayBacktrack index path.parents x)
  else if value = 0 then return (0, x)
  else
    Exec.assert (path.shift % 6 = 0)
    return (0, ← xarrayFill fresh index value fuel x path.slot path.shift)

/-- The shift a node over the root gets, and whether the root is full (`xarray.c:129`). -/
def xarrayRootShift (x : Xarray) : Exec (Nat × Bool) :=
  if x.root = 0 then .ok (0, false)
  else if xarrayEntryIsValue x.root then .ok (0, true)
  else do
    let nd ← x.deref (xarrayEntryGetNode x.root)
    return (nd.shift + 6, nd.fullMask = BitVec.allOnes 64)

/-- Source: `xarray_raw_set` (`xarray.c:120`), `xarray_set` (`xarray.c:215`). -/
def xarraySet (fuel : Nat) (x : Xarray) (index value : Nat) : Exec (Nat × Xarray) := do
  Exec.assert (value &&& 1 = 0)
  if ← xarrayIsInBound x x.root index then xarraySetInBound fresh fuel x index value
  else if value = 0 then return (0, x)
  else
    let (currentShift, previousIsFull) ← xarrayRootShift x
    let targetShift ← xarrayTargetShift index fuel 0
    Exec.assert (currentShift < targetShift)
    let (entry, x) ← xarrayGrow fresh targetShift fuel x x.root currentShift previousIsFull
    xarraySetInBound fresh fuel { x with root := entry } index value

/-- Source: `xarray_clear` (`xarray.h:122`). -/
def xarrayClear (fuel : Nat) (x : Xarray) (index : Nat) : Exec (Nat × Xarray) :=
  xarraySet fresh fuel x index 0

/-- Source: `xarray_raw_cmpxchg` (`xarray.c:223`), `xarray_cmpxchg` (`xarray.c:231`). -/
def xarrayCmpxchg (fuel : Nat) (x : Xarray) (index expected value : Nat) :
    Exec (Nat × Xarray) := do
  Exec.assert (value &&& 1 = 0)
  let old ← xarrayGet fuel x index
  if old ≠ expected then return (old, x)
  else xarraySet fresh fuel x index value

/-! ## Allocation of an index -/

/-- The loop of `xarray_entry_allocate` that adds nodes below a NULL entry (`xarray.c:245`), with
whether no node was added. -/
def xarrayAllocateFill (min value : Nat) :
    Nat → Xarray → XarraySlot → Nat → Bool → Exec (Bool × Xarray)
  | 0, _, _, _, _ => .error .fuel
  | fuel + 1, x, slot, parentShift, full =>
    if parentShift ≥ 6 then
      let parentShift := parentShift - 6
      let (a, x) := x.slabAlloc fresh
      let nd := { x.node a with shift := parentShift }
      let x := x.setNode a nd
      let x := x.store slot (xarrayEntryFromNode a)
      xarrayAllocateFill min value fuel x (.entry a (xarrayNodeGetLocalIndex nd min)) parentShift
        false
    else .ok (full, x.store slot value)

/-- The loop of `xarray_entry_allocate` over the entries `i`, `i + 1`, … of the node at `a`
(`xarray.c:267`), where `child` is the recursive call. -/
def xarrayScan (child : Xarray → Nat → Nat → Exec (Option (Nat × Bool) × Xarray))
    (a start min : Nat) : Nat → Nat → Xarray → Exec (Option (Nat × Bool) × Xarray)
  | 0, _, x => .ok (none, x)
  | rest + 1, i, x =>
    if (x.node a).fullMask.getLsbD i then xarrayScan child a start min rest (i + 1) x
    else do
      let (res, x) ← child x i (if i = start then min else 0)
      match res with
      | none => xarrayScan child a start min rest (i + 1) x
      | some (index, childIsFull) =>
        let nd := x.node a
        let mask := if childIsFull then nd.fullMask ||| BitVec.twoPow 64 i else nd.fullMask
        return (some ((index + i <<< nd.shift) % 2 ^ 64, mask = BitVec.allOnes 64),
          x.setMask a mask)

/-- The index found, relative to the entry, and whether the entry is full then.
Source: `xarray_entry_allocate` (`xarray.c:240`). -/
def xarrayEntryAllocate (value : Nat) :
    Nat → Xarray → XarraySlot → Nat → Nat → Exec (Option (Nat × Bool) × Xarray)
  | 0, _, _, _, _ => .error .fuel
  | fuel + 1, x, slot, min, parentShift =>
    let entry := x.fetch slot
    if entry = 0 then do
      let (full, x) ← xarrayAllocateFill fresh min value (fuel + 1) x slot parentShift true
      return (some (0, full), x)
    else if xarrayEntryIsValue entry then .ok (none, x)
    else do
      let a := xarrayEntryGetNode entry
      let nd ← x.deref a
      if nd.fullMask = BitVec.allOnes 64 then return (none, x)
      else
        let start := xarrayNodeGetLocalIndex nd min
        xarrayScan (fun x i min => xarrayEntryAllocate value fuel x (.entry a i) min nd.shift)
          a start min (64 - start) start x

/-- The node `xarray_raw_allocate_from` puts over a root without room (`xarray.c:294`). The variable
`child_is_full` has not been assigned then: `stale` is what happens to be in it. -/
def xarrayReroot (x : Xarray) (stale : Bool) : Exec (Nat × Xarray) := do
  let entry := x.root
  let (a, x) := x.slabAlloc fresh
  let shift ← if xarrayEntryIsValue entry then pure 0
    else (x.deref (xarrayEntryGetNode entry)).map fun nd => nd.shift + 6
  let nd := x.node a
  let x := x.setNode a
    { shift := shift
      entries := update nd.entries 0 entry
      fullMask := if stale then 1 else 0 }
  return (a, { x with root := xarrayEntryFromNode a })

/-- Source: `xarray_raw_allocate_from` (`xarray.c:281`), `xarray_allocate_from` (`xarray.c:312`). -/
def xarrayAllocateFrom (fuel : Nat) (x : Xarray) (start value : Nat) (stale : Bool) :
    Exec (Nat × Xarray) := do
  Exec.assert (value &&& 1 = 0)
  if ← xarrayIsInBound x x.root start then
    let (res, x) ← xarrayEntryAllocate fresh value fuel x .root start 0
    match res with
    | some (index, _) => return (index, x)
    | none =>
      let (a, x) ← xarrayReroot fresh x stale
      let shift := (x.node a).shift
      let (res, x) ← xarrayEntryAllocate fresh value fuel x (.entry a 1) 0 shift
      match res with
      | some (index, _) => return ((index + 2 ^ shift % 2 ^ 64) % 2 ^ 64, x)
      -- the result is not checked: `index` would be used unassigned
      | none => .error .unreachable
  else
    let (_, x) ← xarraySet fresh fuel x start value
    return (start, x)

end Stanix

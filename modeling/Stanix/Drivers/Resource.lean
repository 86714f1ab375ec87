import Stanix.Base.Exec
import Stanix.Base.Keyed
import Mathlib.Algebra.Order.Ring.Nat

/-!
# Resource managers

`kernel/drivers/resource.c`: a resource manager keeps the address ranges of a bus as a list of
segments, each free or given to a device. Regions are added, resources are allocated out of the free
segments, which are split as needed, and freed again, when free neighbours are merged.

The list is modelled as the list of its nodes, named by addresses that are never used twice. A call
comes with what the allocators answer to it. Sizes and addresses are `size_t`; the one difference
that can wrap around, the distance from a start past the end of the request, is computed modulo
`2 ^ 64`.
-/

namespace Stanix

open Keyed

/-! ## Segments and resources -/

/-- Source: `rman_seg_t` (`resource.h:66`), with its address. -/
structure RmanSeg where
  id : Nat
  start : Nat
  size : Nat
  devnode : Option Nat := none
  deriving DecidableEq

/-- The first address past a segment. -/
def RmanSeg.stop (seg : RmanSeg) : Nat := seg.start + seg.size

/-- Source: `rman_seg_is_allocated` (`resource.c:89`). -/
def RmanSeg.isAllocated (seg : RmanSeg) : Bool := seg.devnode.isSome

/-- A resource that was handed out, with the address of its segment (`private`) and the device it is
attached to. Source: `resource_t` (`resource.h:32`). -/
structure RmanResource where
  id : Nat
  segId : Nat
  devnode : Nat
  start : Nat
  size : Nat
  flags : BitVec 32
  deriving DecidableEq

/-- A resource manager: its segments, the resources that are out, and a bound of the addresses in
use. Source: `rman_t` (`resource.h:74`). -/
structure Rman where
  type : BitVec 32
  segs : List RmanSeg := []
  resources : List RmanResource := []
  fresh : Nat := 0

/-- Source: `resource_request_t` (`resource.h:14`), without the bound, which is not read. -/
structure ResourceRequest where
  start : Nat
  stop : Nat
  size : Nat
  align : Nat
  flags : BitVec 32
  stop_lt : stop < 2 ^ 64

/-- What the allocators answer to a call: to the two segment allocations that it may make, one after
the other, and to that of the resource. -/
structure RmanAnswers where
  seg₁ : Bool := true
  seg₂ : Bool := true
  resource : Bool := true

/-! ## Regions -/

/-- Source: `rman_get_seg_before` (`resource.c:76`): the last segment that starts below an address,
where `prev` is the one before the list. -/
def rmanGetSegBefore (addr : Nat) : Option RmanSeg → List RmanSeg → Option RmanSeg
  | prev, [] => prev
  | prev, seg :: rest => if seg.start ≥ addr then prev else rmanGetSegBefore addr (some seg) rest

/-- The first half of `rman_merge` (`resource.c:118`): a free segment that ends where `seg` starts is
absorbed. -/
def rmanMergePrev (segs : List RmanSeg) (seg : RmanSeg) : List RmanSeg × RmanSeg :=
  match prev RmanSeg.id seg.id segs with
  | some prev =>
    if prev.stop = seg.start ∧ prev.isAllocated = false then
      let seg' := { seg with start := prev.start, size := seg.size + prev.size }
      (modify RmanSeg.id seg.id (fun _ => seg') (remove RmanSeg.id prev.id segs), seg')
    else (segs, seg)
  | none => (segs, seg)

/-- The second half of `rman_merge` (`resource.c:129`): a free segment that starts where `seg` ends
is absorbed. -/
def rmanMergeNext (segs : List RmanSeg) (seg : RmanSeg) : List RmanSeg :=
  match next RmanSeg.id seg.id segs with
  | some next =>
    if seg.stop = next.start ∧ next.isAllocated = false then
      modify RmanSeg.id seg.id (fun _ => { seg with size := seg.size + next.size })
        (remove RmanSeg.id next.id segs)
    else segs
  | none => segs

/-- Source: `rman_merge` (`resource.c:116`). -/
def rmanMerge (segs : List RmanSeg) (seg : RmanSeg) : List RmanSeg :=
  let (segs, seg) := rmanMergePrev segs seg
  rmanMergeNext segs seg

/-- The segment behind the one that `rman_get_seg_before` found (`resource.c:148`). -/
def rmanSegAfter (segs : List RmanSeg) (before : Option RmanSeg) : Option RmanSeg :=
  match before with
  | some before => next RmanSeg.id before.id segs
  | none => segs.head?

/-- Source: `rman_raw_add_region` (`resource.c:139`). -/
def rmanAddRegion (rman : Rman) (start size : Nat) (answers : RmanAnswers) :
    Option Errno × Rman :=
  let before := rmanGetSegBefore start none rman.segs
  if ∃ seg, before = some seg ∧ seg.stop > start then (some .inval, rman)
  else if ∃ seg, rmanSegAfter rman.segs before = some seg ∧ seg.start < (start + size) % 2 ^ 64 then
    (some .inval, rman)
  else if answers.seg₁ = false then (some .nomem, rman)
  else
    let seg : RmanSeg := { id := rman.fresh, start, size }
    let segs := addAfter RmanSeg.id (before.map RmanSeg.id) seg rman.segs
    (none, { rman with segs := rmanMerge segs seg, fresh := rman.fresh + 1 })

/-! ## Allocation -/

/-- The part of a segment that a request can use (`resource.c:198`): stripped to the bounds of the
request and aligned, its start and its size, if the alignment leaves something. -/
def rmanUsable (request : ResourceRequest) (align : Nat) (seg : RmanSeg) : Option (Nat × Nat) :=
  let segStart := max seg.start request.start
  let segCount := seg.stop - segStart
  let segCount :=
    if segStart + segCount > request.stop then (request.stop + 2 ^ 64 - segStart) % 2 ^ 64
    else segCount
  if segStart % align ≠ 0 then
    let toAdd := align - segStart % align
    if segCount < toAdd then none else some (segStart + toAdd, segCount - toAdd)
  else some (segStart, segCount)

/-- The search of `rman_raw_allocate` (`resource.c:187`): the first free segment with enough room and
the start of the resource in it. -/
def rmanFindSeg (request : ResourceRequest) (align size : Nat) :
    List RmanSeg → Option (RmanSeg × Nat)
  | [] => none
  | seg :: rest =>
    if seg.stop ≤ request.start then rmanFindSeg request align size rest
    else if seg.start ≥ request.stop then none
    else if seg.isAllocated then rmanFindSeg request align size rest
    else
      match rmanUsable request align seg with
      | none => rmanFindSeg request align size rest
      | some (segStart, segCount) =>
        if segCount < size then rmanFindSeg request align size rest else some (seg, segStart)

/-- The split of a segment before a start (`resource.c:240`): the segment keeps what is behind. -/
def rmanSplitBefore (segs : List RmanSeg) (seg : RmanSeg) (start fresh : Nat) :
    List RmanSeg × RmanSeg :=
  if seg.start < start then
    let new : RmanSeg := { id := fresh, start := seg.start, size := start - seg.start }
    let seg' := { seg with start := seg.start + new.size, size := seg.size - new.size }
    (addBefore RmanSeg.id seg.id new (modify RmanSeg.id seg.id (fun _ => seg') segs), seg')
  else (segs, seg)

/-- The split of a segment after a size (`resource.c:249`): the segment keeps what is in front. -/
def rmanSplitAfter (segs : List RmanSeg) (seg : RmanSeg) (start size fresh : Nat) :
    List RmanSeg × RmanSeg :=
  if seg.size > size then
    let new : RmanSeg := { id := fresh, start := start + size, size := seg.size - size }
    let seg' := { seg with size := seg.size - new.size }
    (addAfter RmanSeg.id (some seg.id) new (modify RmanSeg.id seg.id (fun _ => seg') segs),
      seg')
  else (segs, seg)

/-- The default of a request's size or alignment (`resource.c:177`). -/
def rmanDefault (n : Nat) : Nat := if n = 0 then 1 else n

/-- Source: `rman_raw_allocate` (`resource.c:171`). The resource or the error, and the manager; the
segments that were split are not put together again when a later allocation fails. -/
def rmanAllocate (rman : Rman) (devnode : Option Nat) (request : ResourceRequest)
    (answers : RmanAnswers) : Exec (Except Errno RmanResource × Rman) :=
  let size := rmanDefault request.size
  let align := rmanDefault request.align
  if request.start % align ≠ 0 then .ok (.error .inval, rman)
  else
    match rmanFindSeg request align size rman.segs with
    | none => .ok (.error .nomem, rman)
    | some (seg, start) =>
      if seg.start < start ∧ answers.seg₁ = false then .ok (.error .nomem, rman)
      else
        let (segs, seg) := rmanSplitBefore rman.segs seg start rman.fresh
        let rman := { rman with segs, fresh := rman.fresh + 1 }
        if seg.size > size ∧ answers.seg₂ = false then .ok (.error .nomem, rman)
        else
          let (segs, seg) := rmanSplitAfter rman.segs seg start size rman.fresh
          let rman := { rman with segs, fresh := rman.fresh + 1 }
          if answers.resource = false then .ok (.error .nomem, rman)
          else do
            -- the resource is put on the list of the device
            let dev ← Exec.deref devnode
            let resource : RmanResource :=
              { id := rman.fresh, segId := seg.id, devnode := dev, start := seg.start,
                size := seg.size, flags := request.flags ||| rman.type }
            return (.ok resource,
              { rman with
                segs := modify RmanSeg.id seg.id (fun s => { s with devnode }) rman.segs
                resources := resource :: rman.resources
                fresh := rman.fresh + 1 })

/-- Source: `rman_raw_free` (`resource.c:273`), for a device and the address of a resource or NULL.
A resource that is not out any more is memory that was freed. -/
def rmanFree (rman : Rman) (devnode : Option Nat) (resource : Option Nat) : Exec Rman :=
  match resource with
  | none => .ok rman
  | some resource => do
    let resource ← Exec.deref (get RmanResource.id resource rman.resources)
    let seg ← Exec.deref (get RmanSeg.id resource.segId rman.segs)
    Exec.assert (devnode = seg.devnode)
    let seg := { seg with devnode := none }
    let segs := modify RmanSeg.id seg.id (fun _ => seg) rman.segs
    return { rman with
      segs := rmanMerge segs seg
      resources := remove RmanResource.id resource.id rman.resources }

end Stanix

import Stanix.Mem.Vmm.Basic

/-!
# Calls on an address space

The functions of `kernel/mem/vmm.c` that split, unmap, map, protect and clone segments. A call that
answers an error code returns it as an `Errno`. Loops over the tree take rounds, more than there are
segments.
-/

namespace Stanix

variable {σ Sp E : Type} (M : Mmu σ Sp E) (D : VmmDrivers σ Sp)

/-- A callback of the driver of a segment, if the segment has one. -/
def vmmCall (ops : Option Nat) (callback : Nat → σ → Exec σ) (mem : σ) : Exec σ :=
  match ops with
  | some ops => callback ops mem
  | none => .ok mem

/-! ## Splitting -/

/-- The part of a segment behind a cut, as `vmm_space_split` sets it up in a new segment. -/
def VmmSeg.behind (seg : VmmSeg) (sp cut : Nat) (new : VmmSeg) : VmmSeg :=
  { new with
    space := sp, prot := seg.prot, flags := seg.flags, start := cut
    offset := wrap (seg.offset + (cut - seg.start)), stop := seg.stop, ops := seg.ops
    privateData := seg.privateData, fd := seg.fd }

/-- The writes of `vmm_space_split` that make two segments of one. -/
def Vmm.cutSeg (s : Vmm σ Sp) (sp v cut new : Nat) : Vmm σ Sp :=
  let seg := s.seg v
  let s := (s.setSeg new (seg.behind sp cut (s.seg new))).vfsDup seg.fd
  s.setSeg v { s.seg v with stop := cut }

/-- Source: `vmm_space_split` (`vmm.c:293`). When there is no memory for the new segment, the mutex of
the old one stays taken. -/
def vmmSpaceSplit (s : Vmm σ Sp) (sp v cut : Nat) : Exec (Except Errno Nat × Vmm σ Sp) := do
  Exec.assert (cut % pageSize = 0)
  let s := s.acquire v
  let seg := s.seg v
  if cut ≤ seg.start ∨ cut ≥ seg.stop then return (.error .inval, s.release v)
  match seg.ops.bind fun ops => D.canSplit ops seg cut with
  | some err => return (.error err, s.release v)
  | none =>
    match s.slabAlloc with
    | (none, s) => return (.error .nomem, s)
    | (some new, s) =>
      let s := s.cutSeg sp v cut new
      let mem ← vmmCall seg.ops (D.dup · (s.seg new)) s.mem
      let s ← vmmTreeInsert { s with mem := mem } sp new
      return (.ok new, s.release v)

/-- A split that is made only if a condition holds. -/
def vmmSpaceSplitIf (c : Prop) [Decidable c] (s : Vmm σ Sp) (sp v cut : Nat) :
    Exec (Except Errno Nat × Vmm σ Sp) :=
  if c then vmmSpaceSplit D s sp v cut else .ok (.ok v, s)

/-! ## Unmapping -/

/-- The sizes of a space without a segment. -/
def VmmSpace.subSizes (space : VmmSpace Sp) (seg : VmmSeg) : VmmSpace Sp :=
  let space := { space with totalSize := wrapSub space.totalSize seg.size }
  let space :=
    if seg.fd.isSome then { space with fileSize := wrapSub space.fileSize seg.size }
    else { space with anonSize := wrapSub space.anonSize seg.size }
  if HasFlag seg.flags vmmFlagPrivate then
    { space with privateSize := wrapSub space.privateSize seg.size }
  else { space with sharedSize := wrapSub space.sharedSize seg.size }

/-- The flush of a shared segment by its driver. -/
def vmmSegFlush (sp : Sp) (seg : VmmSeg) (ops : Nat) (mem : σ) : Exec σ := do
  let (_, mem) ← D.msync ops sp seg seg.start seg.stop vmmFlagAsync mem
  return mem

/-- The pages of a segment are unmapped; those that are not of a device are released. -/
def vmmSegUnmapPages (sp : Sp) (seg : VmmSeg) (mem : σ) : Exec σ :=
  if HasFlag seg.flags vmmFlagIo then mmuUnmapPages M mem sp seg.start seg.size
  else mmuUnmapAndReleasePages M mem sp seg.start seg.size

/-- Source: `vmm_space_raw_unmap` (`vmm.c:536`). -/
def vmmSpaceRawUnmap (s : Vmm σ Sp) (sp v : Nat) : Exec (Vmm σ Sp) := do
  let s := s.acquire v
  let s ← vmmTreeRemove s sp v
  let s := s.release v
  let seg := s.seg v
  let s := s.setSpace sp ((s.space sp).subSizes seg)
  let addrspace := (s.space sp).addrspace
  let flush := if HasFlag seg.flags vmmFlagShared then seg.ops else none
  let mem ← vmmCall flush (vmmSegFlush D addrspace seg) s.mem
  let mem ← vmmCall seg.ops (D.destroy · seg) mem
  let s := { s with mem := mem }.vfsClose seg.fd
  let mem ← vmmSegUnmapPages M addrspace seg s.mem
  return { s with mem := mem }.slabFree v

/-- The loop of `vmm_space_raw_unmap_range`. -/
def vmmUnmapRangeLoop (sp start stop : Nat) :
    Nat → Option Nat → Vmm σ Sp → Exec (Option Errno × Vmm σ Sp)
  | 0, _, _ => .error .fuel
  | _ + 1, none, s => .ok (none, s)
  | rounds + 1, some v, s => do
    if (s.seg v).start ≥ stop then return (none, s)
    let node ← vmmTreeNext s sp v
    -- the part before the range stays, the segment to remove is the new one
    let (ret, s) ← vmmSpaceSplitIf D (start > (s.seg v).start) s sp v start
    match ret with
    | .error err => return (some err, s)
    | .ok v =>
      let (ret, s) ← vmmSpaceSplitIf D (stop < (s.seg v).stop) s sp v stop
      match ret with
      | .error err => return (some err, s)
      | .ok _ =>
        let s ← vmmSpaceRawUnmap M D s sp v
        vmmUnmapRangeLoop sp start stop rounds node s

/-- Source: `vmm_space_unmap_range` (`vmm.c:606`) and `vmm_space_raw_unmap_range`. -/
def vmmSpaceUnmapRange (s : Vmm σ Sp) (sp start stop : Nat) : Exec (Option Errno × Vmm σ Sp) := do
  Exec.assert (start % pageSize = 0)
  Exec.assert (stop % pageSize = 0)
  let node ← vmmTreeFrom s sp start
  vmmUnmapRangeLoop M D sp start stop s.fuel node s

/-- The loop of `vmm_space_unmap_all`. -/
def vmmUnmapAllLoop (sp : Nat) : Nat → Option Nat → Vmm σ Sp → Exec (Vmm σ Sp)
  | 0, _, _ => .error .fuel
  | _ + 1, none, s => .ok s
  | rounds + 1, some v, s => do
    let node ← vmmTreeNext s sp v
    let s ← vmmSpaceRawUnmap M D s sp v
    vmmUnmapAllLoop sp rounds node s

/-- Source: `vmm_space_unmap_all` (`vmm.c:613`). -/
def vmmSpaceUnmapAll (s : Vmm σ Sp) (sp : Nat) : Exec (Vmm σ Sp) := do
  let node ← avltreeFirst s.fuel (s.tree sp)
  vmmUnmapAllLoop M D sp s.fuel node s

/-! ## Mapping -/

/-- Source: `vmm_has_perm` (`vmm.c:334`). -/
def vmmHasPerm (fd : Option Nat) (prot flags : BitVec 64) : Exec Bool := do
  if HasFlag flags vmmFlagAnonymous then return true
  let fd ← Exec.deref fd
  if D.wronly fd then return false
  if HasFlag flags vmmFlagShared ∧ HasFlag prot mmuFlagWrite ∧ D.rdwr fd = false then return false
  return true

/-- Where the search for an address starts (`vmm.c:367`). -/
def vmmMapBase : Nat := pageSize * 128

/-- The loop of `vmm_space_raw_create_seg` that looks for an address, with its variable `address`. -/
def vmmFirstFit (s : Vmm σ Sp) (sp size : Nat) : Nat → Option Nat → Nat → Exec Nat
  | 0, _, _ => .error .fuel
  | _ + 1, none, address => .ok address
  | rounds + 1, some v, address =>
    if wrapSub (s.seg v).start address ≥ size then .ok address
    else do
      let node ← vmmTreeNext s sp v
      vmmFirstFit s sp size rounds node (s.seg v).stop

/-- Where a new segment comes: at the address asked for, once what is there is unmapped, or at one that
is found. Source: the first half of `vmm_space_raw_create_seg` (`vmm.c:353`). -/
def vmmSpacePlace (s : Vmm σ Sp) (sp address size : Nat) : Exec (Except Errno Nat × Vmm σ Sp) := do
  if address ≠ 0 then
    let (ret, s) ← vmmSpaceUnmapRange M D s sp address (wrap (address + size))
    match ret with
    | some err => return (.error err, s)
    | none => return (.ok address, s)
  else
    let node ← avltreeFirst s.fuel (s.tree sp)
    let address ← vmmFirstFit s sp size s.fuel node vmmMapBase
    if address = 0 then return (.error .nomem, s) else return (.ok address, s)

/-- Source: `vmm_space_raw_create_seg` (`vmm.c:349`). -/
def vmmSpaceRawCreateSeg (s : Vmm σ Sp) (sp address size : Nat) (prot flags : BitVec 64) :
    Exec (Except Errno Nat × Vmm σ Sp) := do
  match s.slabAlloc with
  | (none, s) => return (.error .nomem, s)
  | (some new, s) =>
    let (ret, s) ← vmmSpacePlace M D s sp address size
    match ret with
    | .error err => return (.error err, s.slabFree new)
    | .ok address =>
      let s := s.setSeg new { s.seg new with
        space := sp, start := address, stop := wrap (address + size), prot := prot, flags := flags }
      let s := s.acquire new
      let s ← vmmTreeInsert s sp new
      return (.ok new, s)

/-- The loop of `vmm_space_raw_map` that maps the page of zeros, with the number of pages that are
left. -/
def vmmMapZeroLoop (sp : Sp) (prot : BitVec 64) (start page : Nat) :
    Nat → Nat → Option E → σ → Exec (Option Errno × σ)
  | 0, _, none, mem => .ok (none, mem)
  | 0, _, some entry, mem => do
    let mem ← M.entryReleaseLock mem entry
    return (none, mem)
  | left + 1, addr, entry, mem => do
    let (entry, mem) ← M.createNextEntryAndAcquireLock mem sp addr entry (wrapSub addr pageSize)
    match entry with
    | none =>
      let mem ← mmuUnmapAndReleasePages M mem sp start (wrapSub addr start)
      return (some .nomem, mem)
    | some entry =>
      let (_, mem) ← M.retain mem page
      let mem := M.store mem entry (mapValue page (prot &&& ~~~mmuFlagWrite))
      vmmMapZeroLoop sp prot start page left (wrap (addr + pageSize)) (some entry) mem

/-- What fills a new segment: new pages, the page of zeros, or what the driver of the file maps. The
result has the fields of the segment that a driver may set. -/
def vmmSegFill (sp : Sp) (seg : VmmSeg) (fd : Option Nat) (offset : Nat) (mem : σ) :
    Exec (Option Errno × MmapSeg × σ) := do
  let same : MmapSeg := ⟨seg.prot, seg.flags, seg.ops, seg.privateData⟩
  if HasFlag seg.flags vmmFlagAnonymous then
    if HasFlag seg.flags vmmFlagShared then
      let (ret, mem) ← mmuAllocateZeroAndMapPages M mem sp seg.start seg.size seg.prot
      return (ret, same, mem)
    else
      let (page, mem) ← pmmGetZeroPage M mem
      let (ret, mem) ← vmmMapZeroLoop M sp seg.prot seg.start page
        ((seg.stop - seg.start) / pageSize) seg.start none mem
      return (ret, same, mem)
  else
    match fd with
    | some fd => D.mmap fd offset sp seg mem
    | none => return (some .inval, same, mem)

/-- The sizes of a space with a segment. -/
def VmmSpace.addSizes (space : VmmSpace Sp) (seg : VmmSeg) (file : Bool) (flags : BitVec 64) :
    VmmSpace Sp :=
  let space :=
    if file then { space with fileSize := wrap (space.fileSize + seg.size) }
    else { space with anonSize := wrap (space.anonSize + seg.size) }
  let space :=
    if HasFlag flags vmmFlagPrivate then
      { space with privateSize := wrap (space.privateSize + seg.size) }
    else { space with sharedSize := wrap (space.sharedSize + seg.size) }
  let space := { space with totalSize := wrap (space.totalSize + seg.size) }
  { space with peakSize := max space.totalSize space.peakSize }

/-- Source: `vmm_space_map` (`vmm.c:461`) and `vmm_space_raw_map`. -/
def vmmSpaceMap (s : Vmm σ Sp) (sp address size : Nat) (prot flags : BitVec 64) (fd : Option Nat)
    (offset : Nat) : Exec (Except Errno Nat × Vmm σ Sp) := do
  let size := pageAlignUp size
  let perm ← vmmHasPerm D fd prot flags
  if perm = false then return (.error .acces, s)
  let (ret, s) ← vmmSpaceRawCreateSeg M D s sp address size prot flags
  match ret with
  | .error err => return (.error err, s)
  | .ok new =>
    let fd := if HasFlag flags vmmFlagAnonymous then none else fd
    let (ret, seg, mem) ← vmmSegFill M D (s.space sp).addrspace (s.seg new) fd offset s.mem
    let s := { s with mem := mem }.setSeg new { s.seg new with
      prot := seg.prot, flags := seg.flags, ops := seg.ops, privateData := seg.privateData }
    match ret with
    | some err =>
      let s ← vmmTreeRemove s sp new
      return (.error err, (s.release new).slabFree new)
    | none =>
      let s := if fd.isSome then
          (s.vfsDup fd).setSeg new { s.seg new with fd := fd, offset := offset }
        else s
      let s := s.setSpace sp ((s.space sp).addSizes (s.seg new) fd.isSome flags)
      return (.ok new, s.release new)

/-! ## Protection -/

/-- The loop of `vmm_space_chprot` over the pages of a segment. Those of a private segment that are
shared are not made writable. -/
def vmmProtectPages (addrspace : Sp) (seg : VmmSeg) (prot : BitVec 64) (mem : σ) : Exec (σ × Unit) :=
  mmuForeachEntryRange M addrspace seg.stop (fun _ entry (mem, ()) =>
    match mmuEntryValGetPage (M.fetch mem entry) with
    | none => .ok (mem, ())
    | some page =>
      let flags :=
        if HasFlag seg.flags vmmFlagPrivate ∧ M.refCount mem page > 1 then prot &&& ~~~mmuFlagWrite
        else prot
      .ok (M.store mem entry (setFlagsValue flags (M.fetch mem entry)), ()))
    mmuRounds seg.start (mem, ())

/-- Source: `vmm_space_chprot` (`vmm.c:468`). -/
def vmmSpaceChprot (s : Vmm σ Sp) (sp v : Nat) (prot : BitVec 64) :
    Exec (Option Errno × Vmm σ Sp) := do
  let s := s.acquire v
  let seg := s.seg v
  let perm ← vmmHasPerm D seg.fd prot seg.flags
  if perm = false then return (some .acces, s.release v)
  match seg.ops.bind fun ops => D.canMprotect ops seg prot with
  | some err => return (some err, s.release v)
  | none =>
    if seg.prot = prot then return (none, s.release v)
    let s := s.setSeg v { s.seg v with prot := prot }
    let (mem, _) ← vmmProtectPages M (s.space sp).addrspace seg prot s.mem
    return (none, { s with mem := mem }.release v)

/-- The loop of `vmm_space_raw_chprot_range`. -/
def vmmChprotRangeLoop (sp start stop : Nat) (prot : BitVec 64) :
    Nat → Option Nat → Vmm σ Sp → Exec (Option Errno × Vmm σ Sp)
  | 0, _, _ => .error .fuel
  | _ + 1, none, s => .ok (none, s)
  | rounds + 1, some v, s => do
    if (s.seg v).start ≥ stop then return (none, s)
    if start > (s.seg v).start then
      let (ret, s) ← vmmSpaceSplit D s sp v start
      match ret with
      | .error err => return (some err, s)
      | .ok _ =>
        -- the next round is for the new segment
        let node ← vmmTreeNext s sp v
        vmmChprotRangeLoop sp start stop prot rounds node s
    else
      let (ret, s) ← vmmSpaceSplitIf D (stop < (s.seg v).stop) s sp v stop
      match ret with
      | .error err => return (some err, s)
      | .ok _ =>
        let (ret, s) ← vmmSpaceChprot M D s sp v prot
        match ret with
        | some err => return (some err, s)
        | none =>
          let node ← vmmTreeNext s sp v
          vmmChprotRangeLoop sp start stop prot rounds node s

/-- Source: `vmm_space_chprot_range` (`vmm.c:529`) and `vmm_space_raw_chprot_range`. -/
def vmmSpaceChprotRange (s : Vmm σ Sp) (sp start stop : Nat) (prot : BitVec 64) :
    Exec (Option Errno × Vmm σ Sp) := do
  Exec.assert (start % pageSize = 0)
  Exec.assert (stop % pageSize = 0)
  let node ← vmmTreeFrom s sp start
  vmmChprotRangeLoop M D sp start stop prot (s.fuel + 2) node s

end Stanix

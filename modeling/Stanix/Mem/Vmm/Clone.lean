import Stanix.Mem.Vmm.Space

/-!
# Cloning an address space

`vmm_clone` of `kernel/mem/vmm.c`: every segment of the parent is copied to the child, with the pages
that are present in it. The pages of private segments lose the right to be written in both spaces.
-/

namespace Stanix

variable {σ Sp E : Type} (M : Mmu σ Sp E) (D : VmmDrivers σ Sp)

/-- The reference that a clone takes to a page; pages of a device have no references. -/
def vmmCloneRetain (seg : VmmSeg) (page : Nat) (mem : σ) : Exec σ :=
  if HasFlag seg.flags vmmFlagIo then .ok mem
  else do
    let (_, mem) ← M.retain mem page
    return mem

/-- The pages of the child before an address are unmapped again. -/
def vmmCloneUndo (child : Sp) (seg : VmmSeg) (vaddr : Nat) (mem : σ) : Exec σ :=
  if HasFlag seg.flags vmmFlagIo then mmuUnmapPages M mem child seg.start (wrapSub vaddr seg.start)
  else mmuUnmapAndReleasePages M mem child seg.start (wrapSub vaddr seg.start)

/-- The loop of `vmm_clone_seg` over the pages of the parent that are present, from an address on. It
ends with the entry of the child whose lock is held, or, without memory for a table, with the pages
unmapped again that it has mapped; the reference to the page at hand stays. -/
def vmmCloneLoop (parent child : Sp) (seg : VmmSeg) (prot : BitVec 64) :
    Nat → Nat → Option E → Nat → σ → Exec (Except Errno (Option E) × σ)
  | 0, _, _, _, _ => .error .fuel
  | rounds + 1, start, childEntry, oldVaddr, mem =>
    match M.getNextEntry mem parent start with
    | none => .ok (.ok childEntry, mem)
    | some (parentEntry, vaddr) =>
      if vaddr < seg.stop then do
        match mmuEntryValGetPage (M.fetch mem parentEntry) with
        | none =>
          vmmCloneLoop parent child seg prot rounds (wrap (vaddr + pageSize)) childEntry oldVaddr mem
        | some page =>
          let mem ← vmmCloneRetain M seg page mem
          let (entry, mem) ← M.createNextEntryAndAcquireLock mem child vaddr childEntry oldVaddr
          match entry with
          | none =>
            let mem ← vmmCloneUndo M child seg vaddr mem
            return (.error .nomem, mem)
          | some entry =>
            let mem := M.store mem entry (mapValue page prot)
            vmmCloneLoop parent child seg prot rounds (wrap (vaddr + pageSize)) (some entry) vaddr mem
      else .ok (.ok childEntry, mem)

/-- The pages of a private segment lose the right to be written in the parent. -/
def vmmCloneProtect (parent : Sp) (seg : VmmSeg) (mem : σ) : Exec σ := do
  if HasFlag seg.flags vmmFlagPrivate then
    let (mem, _) ← mmuForeachEntryRange M parent seg.stop
      (fun _ entry (mem, ()) =>
        .ok (M.store mem entry (clearFlagsValue mmuFlagWrite (M.fetch mem entry)), ()))
      mmuRounds seg.start (mem, ())
    return mem
  else return mem

/-- The copy of a segment for the child, as `vmm_clone_seg` sets it up in a new segment. -/
def VmmSeg.copy (seg : VmmSeg) (child : Nat) (new : VmmSeg) : VmmSeg :=
  { new with
    space := child, prot := seg.prot, flags := seg.flags, start := seg.start, stop := seg.stop
    offset := seg.offset, ops := seg.ops, privateData := seg.privateData, fd := seg.fd }

/-- The lock of an entry is released, if there is one. -/
def vmmEntryRelease (entry : Option E) (mem : σ) : Exec σ :=
  match entry with
  | none => .ok mem
  | some entry => M.entryReleaseLock mem entry

/-- Source: `vmm_clone_seg` (`vmm.c:658`). When there is no memory for a table it is the segment of the
parent that is freed. -/
def vmmCloneSeg (s : Vmm σ Sp) (parent child v : Nat) : Exec (Option Errno × Vmm σ Sp) := do
  match s.slabAlloc with
  | (none, s) => return (some .nomem, s)
  | (some new, s) =>
    let s := s.acquire v
    let seg := s.seg v
    let newSeg := seg.copy child (s.seg new)
    let s := (s.setSeg new newSeg).vfsDup seg.fd
    let prot := if HasFlag seg.flags vmmFlagPrivate then seg.prot &&& ~~~mmuFlagWrite else seg.prot
    let parentSpace := (s.space parent).addrspace
    let childSpace := (s.space child).addrspace
    let (ret, mem) ← vmmCloneLoop M parentSpace childSpace seg prot mmuRounds seg.start none 0 s.mem
    match ret with
    | .error err => return (some err, ({ s with mem := mem }.release v).slabFree v)
    | .ok childEntry =>
      let mem ← vmmEntryRelease M childEntry mem
      let mem ← vmmCloneProtect M parentSpace seg mem
      let s ← vmmTreeInsert { s with mem := mem } child new
      let mem ← vmmCall seg.ops (D.dup · newSeg) s.mem
      return (none, { s with mem := mem }.release v)

/-- The loop of `vmm_clone` over the segments of the parent. -/
def vmmCloneSegsLoop (parent child : Nat) :
    Nat → Option Nat → Vmm σ Sp → Exec (Option Errno × Vmm σ Sp)
  | 0, _, _ => .error .fuel
  | _ + 1, none, s => .ok (none, s)
  | rounds + 1, some v, s => do
    let (ret, s) ← vmmCloneSeg M D s parent child v
    match ret with
    | some err => return (some err, s)
    | none =>
      let node ← vmmTreeNext s parent v
      vmmCloneSegsLoop parent child rounds node s

/-- The sizes of a space, taken over from another one. -/
def VmmSpace.copySizes (child parent : VmmSpace Sp) : VmmSpace Sp :=
  { child with
    totalSize := parent.totalSize, peakSize := parent.peakSize, privateSize := parent.privateSize
    sharedSize := parent.sharedSize, fileSize := parent.fileSize, anonSize := parent.anonSize }

/-- Source: `vmm_clone` (`vmm.c:729`). -/
def vmmClone (s : Vmm σ Sp) (parent child : Nat) : Exec (Option Errno × Vmm σ Sp) := do
  let s := s.setSpace child ((s.space child).copySizes (s.space parent))
  let node ← avltreeFirst s.fuel (s.tree parent)
  let (ret, s) ← vmmCloneSegsLoop M D parent child s.fuel node s
  match ret with
  | none => return (none, s)
  | some err =>
    let s ← vmmSpaceUnmapAll M D s child
    return (some err, s)

end Stanix

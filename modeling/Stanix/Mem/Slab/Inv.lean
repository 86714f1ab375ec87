import Stanix.Mem.Slab.Basic

/-!
# The invariant of a slab cache

Three parts, each over the data it speaks of, so that a step that does not touch the data keeps the
part as it is: the lists of the cache (`SlabCache.OnLists`), the blocks of pages and the slab noted
for each of their pages (`SlabBlocks`), and the objects (`Slab.Ok` for one slab). The last one says
that the objects on the free list of a slab and its live objects are a permutation of all its
objects: that no object is in both, that none is lost and how many there are all follow from it.
-/

namespace Stanix

open List Function

/-- The bytes of a slab. -/
def SlabCache.blockSize (cache : SlabCache) : Nat := order2Count cache.order * pageSize

/-- The objects of a slab. -/
def SlabCache.objects (cache : SlabCache) (slab : Nat) : List Nat :=
  (List.range cache.capacity).map (cache.object slab)

/-- The live objects among a list of objects. -/
def liveAmong (live objs : List Nat) : List Nat := live.filter (· ∈ objs)

section LiveAmong

variable {live objs : List Nat} {x : Nat}

theorem mem_liveAmong : x ∈ liveAmong live objs ↔ x ∈ live ∧ x ∈ objs := by simp [liveAmong]

theorem liveAmong_cons_of_mem (h : x ∈ objs) :
    liveAmong (x :: live) objs = x :: liveAmong live objs := by simp [liveAmong, h]

theorem liveAmong_cons_of_notMem (h : x ∉ objs) :
    liveAmong (x :: live) objs = liveAmong live objs := by simp [liveAmong, h]

/-- An object that is no longer live, seen from its own slab. -/
theorem liveAmong_erase_of_mem (hx : x ∈ live) (h : x ∈ objs) :
    (liveAmong live objs).Perm (x :: liveAmong (live.erase x) objs) := by
  rw [← liveAmong_cons_of_mem h]
  exact (perm_cons_erase hx).filter _

/-- An object that is no longer live, seen from another slab. -/
theorem liveAmong_erase_of_notMem (hx : x ∈ live) (h : x ∉ objs) :
    (liveAmong (live.erase x) objs).Perm (liveAmong live objs) := by
  have hfilter : (liveAmong live objs).Perm (liveAmong (x :: live.erase x) objs) :=
    (perm_cons_erase hx).filter _
  rw [liveAmong_cons_of_notMem h] at hfilter
  exact hfilter.symm

end LiveAmong

/-! ## One slab -/

/-- **The objects of a slab.** Those on its free list and the live ones are all of them, and its
header counts the live ones; `full` says that it is on the list of full slabs. -/
def Slab.Ok (header : Slab) (next : Nat → Option Nat) (objs live : List Nat) (full : Prop) : Prop :=
  ∃ free, Sll.Rep next header.free free ∧ (free ++ liveAmong live objs).Perm objs ∧
    header.allocatedCount = BitVec.ofNat 64 (liveAmong live objs).length ∧
    (free = [] ↔ full) ∧ (header.state = .slabFull ↔ full)

namespace Slab.Ok

variable {header : Slab} {next next' : Nat → Option Nat} {objs live live' : List Nat} {full : Prop}
  {x : Nat}

/-- A slab is not affected by what happens to the objects of others. -/
theorem congr (h : header.Ok next objs live full) (hnext : ∀ y ∈ objs, next' y = next y)
    (hlive : (liveAmong live' objs).Perm (liveAmong live objs)) :
    header.Ok next' objs live' full := by
  obtain ⟨free, hrep, hperm, hcount, hfull⟩ := h
  refine ⟨free, hrep.congr fun y hy => hnext y ?_, ?_, ?_, hfull⟩
  · exact hperm.subset (mem_append_left _ hy)
  · exact (hlive.append_left free).trans hperm
  rw [hcount, hlive.length_eq]

/-- A slab that is not full has an object to hand out, which is not live; `state` is what the code
makes of the state, and `word` what it leaves in the object. -/
theorem take (h : header.Ok next objs live False) (hnd : objs.Nodup) (word : Option Nat) :
    ∃ node, header.free = some node ∧ node ∈ objs ∧ node ∉ live ∧
      ∀ state, (state = .slabFull ↔ next node = none) →
        Slab.Ok ⟨next node, header.allocatedCount + 1, state⟩ (update next node word) objs
          (node :: live) (next node = none) := by
  obtain ⟨free, hrep, hperm, hcount, hempty, -⟩ := h
  cases free with
  | nil => exact (hempty.1 rfl).elim
  | cons node free => ?_
  obtain ⟨hfirst, hrep⟩ := hrep
  have hnode : node ∈ objs := hperm.subset mem_cons_self
  obtain ⟨hnotMem, -⟩ := nodup_cons.1 ((cons_append ▸ hperm).nodup_iff.2 hnd)
  rw [mem_append, not_or] at hnotMem
  refine ⟨node, hfirst, hnode, fun hl => hnotMem.2 (mem_liveAmong.2 ⟨hl, hnode⟩), ?_⟩
  intro state hstate
  refine ⟨free, hrep.congr fun y hy => ?_, ?_, ?_, hrep.eq_nil_iff, hstate⟩
  · exact update_of_ne (fun hyn : y = node => hnotMem.1 (hyn ▸ hy)) _ _
  · rw [liveAmong_cons_of_mem hnode]
    exact perm_middle.trans hperm
  rw [liveAmong_cons_of_mem hnode, length_cons, hcount, BitVec.ofNat_add]
  rfl

section

variable (h : header.Ok next objs live full)
include h

/-- A live object is put back in front of the free list. The count falls to zero exactly if no live
object is left. -/
theorem put (hlt : objs.length < 2 ^ 64) (hx : x ∈ live) (hobj : x ∈ objs) (hnd : objs.Nodup) :
    (header.allocatedCount - 1 = 0 ↔ liveAmong (live.erase x) objs = []) ∧
      ∀ state, state ≠ .slabFull →
        Slab.Ok ⟨some x, header.allocatedCount - 1, state⟩ (update next x header.free) objs
          (live.erase x) False := by
  obtain ⟨free, hrep, hperm, hcount, -, -⟩ := h
  have herase := liveAmong_erase_of_mem hx hobj
  have hperm' : (x :: free ++ liveAmong (live.erase x) objs).Perm objs :=
    (perm_middle.symm.trans (herase.symm.append_left free)).trans hperm
  have hfree : x ∉ free := by grind
  have hle : (liveAmong (live.erase x) objs).length < 2 ^ 64 := by
    have := hperm'.length_eq
    rw [length_append] at this
    omega
  have hcount' : header.allocatedCount - 1 =
      BitVec.ofNat 64 (liveAmong (live.erase x) objs).length := by
    rw [hcount, herase.length_eq, length_cons, BitVec.ofNat_add]
    exact BitVec.add_sub_cancel _ _
  refine ⟨?_, fun state hstate => ⟨x :: free, ⟨rfl, ?_⟩, hperm', hcount', by simp, by simpa⟩⟩
  · rw [hcount', ← length_eq_zero_iff, ← BitVec.toNat_inj, BitVec.toNat_ofNat, Nat.mod_eq_of_lt hle]
    rfl
  rw [update_self]
  exact hrep.congr fun y hy => update_of_ne (fun hyx : y = x => hfree (hyx ▸ hy)) _ _

/-- A write to a live object does not touch the free list. -/
theorem write (hx : x ∈ live) (hnd : objs.Nodup) {word : Option Nat} :
    header.Ok (update next x word) objs live full := by
  obtain ⟨free, hrep, hperm, hrest⟩ := h
  refine ⟨free, hrep.congr fun y hy => ?_, hperm, hrest⟩
  refine update_of_ne (fun hyx : y = x => ?_) _ _
  have hobj : y ∈ objs := hperm.subset (mem_append_left _ hy)
  have hlive := mem_liveAmong.2 ⟨hyx ▸ hx, hobj⟩
  exact (nodup_append.1 (hperm.nodup_iff.2 hnd)).2.2 y hy y hlive rfl

/-- All objects of a full slab are live. -/
theorem length_of_full (hfull : full) : (liveAmong live objs).length = objs.length := by
  obtain ⟨free, -, hperm, -, hempty, -⟩ := h
  rw [hempty.2 hfull] at hperm
  exact hperm.length_eq

/-- The free list and the count add up to the number of objects. -/
theorem length_add (hlt : objs.length < 2 ^ 64) :
    ∃ free, Sll.Rep next header.free free ∧
      free.length + header.allocatedCount.toNat = objs.length ∧
      header.allocatedCount.toNat = (liveAmong live objs).length ∧ (free = [] ↔ full) := by
  obtain ⟨free, hrep, hperm, hcount, hempty, -⟩ := h
  have hlen := hperm.length_eq
  rw [length_append] at hlen
  have htoNat : header.allocatedCount.toNat = (liveAmong live objs).length := by
    rw [hcount, BitVec.toNat_ofNat, Nat.mod_eq_of_lt (by omega)]
  exact ⟨free, hrep, by omega, htoNat, hempty⟩

end

end Slab.Ok

/-! ## Where objects lie -/

namespace SlabCache

variable {cache : SlabCache} {slab slab' x i : Nat}

theorem length_objects : (cache.objects slab).length = cache.capacity := by
  simp [objects]

theorem nodup_objects (h : 0 < cache.size) : (cache.objects slab).Nodup := by
  refine List.Nodup.map (fun i j hij => ?_) nodup_range
  exact Nat.eq_of_mul_eq_mul_right h (Nat.add_left_cancel hij)

/-- Objects lie inside the block of their slab, behind its header. -/
theorem bounds_of_mem_objects (h : 0 < cache.size) (hx : x ∈ cache.objects slab) :
    slab ≤ x ∧ x < slab + cache.blockSize := by
  obtain ⟨i, hi, rfl⟩ := mem_map.1 hx
  have hi' : (i + 1) * cache.size ≤ cache.blockSize - slabHeaderSize :=
    (Nat.mul_le_mul_right _ (mem_range.1 hi)).trans (Nat.div_mul_le_self _ _)
  rw [Nat.succ_mul] at hi'
  unfold object slabHeaderSize at *
  omega

theorem capacity_lt (h : cache.order < ordersCount) : cache.capacity < 2 ^ 64 := by
  have hpow : 2 ^ cache.order ≤ 2 ^ 6 := Nat.pow_le_pow_right (by omega) (Nat.le_of_lt_succ h)
  refine (Nat.div_le_self _ _).trans_lt ?_
  unfold order2Count pageSize
  omega

/-! ## The lists -/

/-- The slabs on the lists of a cache. -/
structure OnLists (cache : SlabCache) (nodes : Nat → ListNode Nat) (ps fs : List Nat) : Prop where
  free : cache.free.firstNode = none
  partials : cache.partialList.Rep nodes ps
  fulls : cache.full.Rep nodes fs
  apart : ∀ a ∈ ps, a ∉ fs

end SlabCache

namespace SlabHeap

variable {s : SlabHeap} {ps fs : List Nat} {slab : Nat}

section

variable (h : s.cache.OnLists s.nodes ps fs)
include h

/-- A slab that is on no list becomes the first partial one. -/
theorem onLists_addPartial (hps : slab ∉ ps) (hfs : slab ∉ fs) :
    (s.addPartial slab).cache.OnLists (s.addPartial slab).nodes (slab :: ps) fs := by
  refine ⟨h.free, h.partials.prepend hps, h.fulls.congr fun x hx => ?_, ?_⟩
  · exact h.partials.prepend_frame hps (fun hp => h.apart x hp hx) fun hxs => hfs (hxs ▸ hx)
  intro a ha
  rcases mem_cons.1 ha with rfl | ha
  · exact hfs
  exact h.apart a ha

/-- A partial slab is taken off its list. -/
theorem onLists_removePartial (hps : slab ∈ ps) :
    (s.removePartial slab).cache.OnLists (s.removePartial slab).nodes (ps.erase slab) fs := by
  refine ⟨h.free, h.partials.remove hps, h.fulls.congr fun x hx => ?_, ?_⟩
  · exact h.partials.remove_frame hps fun hp => h.apart x hp hx
  exact fun a ha => h.apart a (mem_of_mem_erase ha)

/-- A slab that is on no list becomes the last full one. -/
theorem onLists_appendFull (hps : slab ∉ ps) (hfs : slab ∉ fs) :
    (s.appendFull slab).cache.OnLists (s.appendFull slab).nodes ps (fs ++ [slab]) := by
  refine ⟨h.free, h.partials.congr fun x hx => ?_, h.fulls.append hfs, ?_⟩
  · exact h.fulls.append_frame hfs (h.apart x hx) fun hxs => hps (hxs ▸ hx)
  intro a ha hfull
  rcases mem_append.1 hfull with hfull | hfull
  · exact h.apart a ha hfull
  exact hps (mem_singleton.1 hfull ▸ ha)

/-- A full slab is taken off its list. -/
theorem onLists_removeFull (hfs : slab ∈ fs) :
    (s.removeFull slab).cache.OnLists (s.removeFull slab).nodes ps (fs.erase slab) := by
  refine ⟨h.free, h.partials.congr fun x hx => ?_, h.fulls.remove hfs, ?_⟩
  · exact h.fulls.remove_frame hfs (h.apart x hx)
  exact fun a ha hfull => h.apart a ha (mem_of_mem_erase hfull)

/-- A new slab, whose node is cleared, is taken off the list of free slabs it was never put on: this
only makes the count of that list wrong. -/
theorem onLists_removeFree (hnode : s.nodes slab = ⟨none, none⟩) :
    (s.removeFree slab).nodes = s.nodes ∧
      (s.removeFree slab).cache.OnLists (s.removeFree slab).nodes ps fs := by
  have hnodes : (s.removeFree slab).nodes = s.nodes := by
    show (listRemove s.nodes s.cache.free slab).1 = s.nodes
    simp [listRemove, hnode]
  refine ⟨hnodes, ?_, hnodes ▸ h.partials, hnodes ▸ h.fulls, h.apart⟩
  show (listRemove s.nodes s.cache.free slab).2.firstNode = none
  rw [listRemove_firstNode, hnode]
  rfl

end

end SlabHeap

/-! ## The blocks -/

/-- The blocks of a cache: whole pages, apart from each other, each page with its slab noted. -/
structure SlabBlocks (blockSize : Nat) (blocks : List Nat) (priv : Nat → Option Nat) : Prop where
  nodup : blocks.Nodup
  apart : ∀ a ∈ blocks, ∀ b ∈ blocks, a ≠ b → a + blockSize ≤ b ∨ b + blockSize ≤ a
  noted : ∀ a ∈ blocks, ∀ x, a ≤ x → x < a + blockSize → priv (x / pageSize) = some a

namespace SlabBlocks

variable {cache : SlabCache} {blockSize : Nat} {blocks : List Nat} {priv : Nat → Option Nat}
  {a b x : Nat}

/-- Two slabs have no object in common. -/
theorem object_unique (h : SlabBlocks cache.blockSize blocks priv) (hsize : 0 < cache.size)
    (ha : a ∈ blocks) (hb : b ∈ blocks) (hxa : x ∈ cache.objects a) (hxb : x ∈ cache.objects b) :
    a = b := by
  obtain ⟨h1, h2⟩ := SlabCache.bounds_of_mem_objects hsize hxa
  obtain ⟨h3, h4⟩ := SlabCache.bounds_of_mem_objects hsize hxb
  by_contra hne
  rcases h.apart a ha b hb hne with h5 | h5 <;> omega

/-- A block is given back. -/
theorem erase (h : SlabBlocks blockSize blocks priv) :
    SlabBlocks blockSize (blocks.erase a) priv := by
  have hsub : ∀ {b}, b ∈ blocks.erase a → b ∈ blocks := mem_of_mem_erase
  exact ⟨h.nodup.erase a, fun b hb c hc => h.apart b (hsub hb) c (hsub hc),
    fun b hb => h.noted b (hsub hb)⟩

end SlabBlocks

end Stanix

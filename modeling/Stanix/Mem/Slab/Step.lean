import Stanix.Mem.Slab.Inv

/-!
# The steps of the slab allocator

What each function does to the invariant `SlabHeap.Inv`: a new slab (`SlabHeap.Inv.newSlab`), an
object taken from a partial slab (`SlabHeap.Inv.take`) and an object put back (`SlabHeap.Inv.put`).
That a slab has room for two objects is used in the last one only: a slab that loses its only object
is then known to be a partial one, which is where the code looks for it.
-/

namespace Stanix

open SlabCache List Function Exec

/-- **The invariant of a cache**, with the objects in use and the slabs on its lists. -/
structure SlabHeap.Inv (s : SlabHeap) (live ps fs : List Nat) : Prop where
  size_pos : 0 < s.cache.size
  capacity : 2 ≤ s.cache.capacity
  order_lt : s.cache.order < ordersCount
  lists : s.cache.OnLists s.nodes ps fs
  owned : SlabBlocks s.cache.blockSize s.blocks s.priv
  mem_blocks : ∀ a, a ∈ s.blocks ↔ a ∈ ps ∨ a ∈ fs
  ok : ∀ a ∈ s.blocks, (s.slabs a).Ok s.next (s.cache.objects a) live (a ∈ fs)
  home : ∀ x ∈ live, ∃ a ∈ s.blocks, x ∈ s.cache.objects a
  nodup : live.Nodup

/-- Every slab has an object in use. -/
def SlabHeap.Used (s : SlabHeap) (live : List Nat) : Prop :=
  ∀ a ∈ s.blocks, ∃ x ∈ live, x ∈ s.cache.objects a

/-! ## The loops of `new_slab` -/

/-- What the first loop of `new_slab` has written. -/
theorem slabSetPrivate_eq (s : SlabHeap) (page slab n : Nat) :
    slabSetPrivate s page slab n =
      { s with priv := fun p => if page ≤ p ∧ p < page + n then some slab else s.priv p } := by
  induction n with
  | zero =>
    have hnone : ∀ p, ¬ (page ≤ p ∧ p < page + 0) := by omega
    simp only [slabSetPrivate, hnone, if_false]
  | succ n ih =>
    simp only [slabSetPrivate, ih]
    congr 1
    funext p
    grind

/-- What the second loop of `new_slab` has written: every object points to the one behind it. -/
theorem slabLinkObjects_eq {s : SlabHeap} (hsize : 0 < s.cache.size) (slab count n : Nat) :
    ∃ next, slabLinkObjects s slab count n = { s with next := next } ∧
      (∀ i < n, next (s.cache.object slab i) =
        if i = count - 1 then none else some (s.cache.object slab (i + 1))) ∧
      ∀ x, (∀ i < n, x ≠ s.cache.object slab i) → next x = s.next x := by
  induction n with
  | zero => exact ⟨s.next, rfl, fun i hi => absurd hi (Nat.not_lt_zero i), fun _ _ => rfl⟩
  | succ n ih => ?_
  obtain ⟨next, heq, hobj, hrest⟩ := ih
  refine ⟨update next (s.cache.object slab n)
    (if n = count - 1 then none else some (s.cache.object slab (n + 1))), ?_, ?_, ?_⟩
  · simp only [slabLinkObjects, heq]
    split <;> rfl
  · intro i hi
    rcases Nat.lt_succ_iff_lt_or_eq.1 hi with hi | rfl
    · have hne : s.cache.object slab i ≠ s.cache.object slab n := by
        intro h
        exact hi.ne (Nat.eq_of_mul_eq_mul_right hsize (Nat.add_left_cancel h))
      rw [update_of_ne hne, hobj i hi]
    rw [update_self]
  grind

/-- **What `new_slab` sets up**: all objects on the free list, in the order of their addresses. -/
theorem newSlab_eq {s : SlabHeap} (hsize : 0 < s.cache.size) (hcap : 0 < s.cache.capacity)
    (page : Nat) :
    ∃ next, newSlab s (some page) = .ok (some (page * pageSize),
        { cache := s.cache
          nodes := update s.nodes (page * pageSize) ⟨none, none⟩
          slabs := update s.slabs (page * pageSize)
            ⟨some (page * pageSize + slabHeaderSize), 0, .slabFree⟩
          next := next
          priv := fun p => if page ≤ p ∧ p < page + order2Count s.cache.order
            then some (page * pageSize) else s.priv p
          blocks := page * pageSize :: s.blocks }) ∧
      Sll.Rep next (some (page * pageSize + slabHeaderSize)) (s.cache.objects (page * pageSize)) ∧
      ∀ x, x ∉ s.cache.objects (page * pageSize) → next x = s.next x := by
  unfold newSlab
  simp only [slabSetPrivate_eq, SlabHeap.setSlab, if_neg hsize.ne']
  obtain ⟨next, heq, hobj, hrest⟩ := slabLinkObjects_eq
    (s := { s with
      nodes := update s.nodes (page * pageSize) ⟨none, none⟩
      slabs := update s.slabs (page * pageSize) ⟨none, 0, .slabFree⟩
      priv := fun p => if page ≤ p ∧ p < page + order2Count s.cache.order
        then some (page * pageSize) else s.priv p
      blocks := page * pageSize :: s.blocks })
    hsize (page * pageSize) s.cache.capacity s.cache.capacity
  refine ⟨next, ?_, ?_, fun x hx => hrest x fun i hi heq' => hx ?_⟩
  · rw [heq]
    simp
  · have hfirst : page * pageSize + slabHeaderSize = s.cache.object (page * pageSize) 0 := by
      simp [object]
    rw [hfirst]
    refine Sll.Rep.of_range hcap fun i hi => ?_
    rw [hobj i hi]
    have hiff : i = s.cache.capacity - 1 ↔ i + 1 = s.cache.capacity := by omega
    simp only [hiff]
  rw [heq']
  exact mem_map_of_mem (mem_range.2 hi)

open SlabHeap

/-- The block of pages at `page` is apart from all blocks of the cache. -/
def SlabHeap.Fresh (s : SlabHeap) (page : Nat) : Prop :=
  ∀ b ∈ s.blocks, page * pageSize + s.cache.blockSize ≤ b ∨ b + s.cache.blockSize ≤ page * pageSize
  deriving Decidable

namespace SlabHeap.Inv

variable {s : SlabHeap} {live ps fs : List Nat} {slab x page : Nat}

/-- The slabs after a change to the object `x` of one of them. -/
theorem ok_update (h : s.Inv live ps fs) (hslab : slab ∈ s.blocks) (hx : x ∈ s.cache.objects slab)
    {header : Slab} {word : Option Nat} {live' fs' : List Nat}
    (hnew : header.Ok (update s.next x word) (s.cache.objects slab) live' (slab ∈ fs'))
    (hlive : ∀ objs, x ∉ objs → (liveAmong live' objs).Perm (liveAmong live objs))
    (hfs : ∀ b, b ≠ slab → (b ∈ fs' ↔ b ∈ fs)) :
    ∀ a ∈ s.blocks, (update s.slabs slab header a).Ok (update s.next x word)
      (s.cache.objects a) live' (a ∈ fs') := by
  intro a ha
  by_cases heq : a = slab
  · subst heq
    rw [update_self]
    exact hnew
  have hxa : x ∉ s.cache.objects a :=
    fun hxa => heq (h.owned.object_unique h.size_pos ha hslab hxa hx)
  rw [update_of_ne heq, hfs a heq]
  refine (h.ok a ha).congr (fun y hy => ?_) (hlive _ hxa)
  exact update_of_ne (fun hyx : y = x => hxa (hyx ▸ hy)) _ _

/-! ## New slabs -/

/-- A new block among the others, its pages noted. -/
theorem blocks_cons (h : s.Inv live ps fs) (hfresh : s.Fresh page) :
    SlabBlocks s.cache.blockSize (page * pageSize :: s.blocks) fun p =>
      if page ≤ p ∧ p < page + order2Count s.cache.order then some (page * pageSize)
      else s.priv p := by
  have hpos : 0 < s.cache.blockSize := Nat.mul_pos (Nat.two_pow_pos _) (by decide)
  -- the pages of the new block are those of its bytes
  have hpage : ∀ x, (page ≤ x / pageSize ∧ x / pageSize < page + order2Count s.cache.order) ↔
      page * pageSize ≤ x ∧ x < page * pageSize + s.cache.blockSize := by
    intro x
    rw [Nat.le_div_iff_mul_le (by decide), Nat.div_lt_iff_lt_mul (by decide), add_mul]
    rfl
  refine ⟨nodup_cons.2 ⟨fun hmem => ?_, h.owned.nodup⟩, ?_, ?_⟩
  · rcases hfresh _ hmem with h1 | h1 <;> omega
  · intro a ha b hb hne
    rcases mem_cons.1 ha with rfl | ha <;> rcases mem_cons.1 hb with rfl | hb
    · exact absurd rfl hne
    · exact hfresh b hb
    · exact (hfresh a ha).symm
    exact h.owned.apart a ha b hb hne
  intro a ha x h1 h2
  rcases mem_cons.1 ha with rfl | ha
  · exact if_pos ((hpage x).2 ⟨h1, h2⟩)
  rw [if_neg, h.owned.noted a ha x h1 h2]
  intro hp
  obtain ⟨h3, h4⟩ := (hpage x).1 hp
  rcases hfresh a ha with h5 | h5 <;> omega

/-- **A new slab** becomes the only partial one, with all its objects on its free list. -/
theorem newSlab (h : s.Inv live [] fs) (hfresh : s.Fresh page) :
    ∃ s', slabPick s (some page) = .ok (some (page * pageSize), s') ∧
      s'.Inv live [page * pageSize] fs ∧ s'.blocks = page * pageSize :: s.blocks ∧
      s'.cache.objects = s.cache.objects := by
  have hblocks := h.blocks_cons hfresh
  obtain ⟨next, heq, hrep, hrest⟩ :=
    newSlab_eq h.size_pos (Nat.lt_of_lt_of_le (by decide) h.capacity) page
  generalize page * pageSize = slab at *
  have hnew := (nodup_cons.1 hblocks.nodup).1
  have hfs : slab ∉ fs := fun hf => hnew ((h.mem_blocks _).2 (.inr hf))
  -- no object of another slab is one of the new slab
  have hother : ∀ {a x}, a ∈ s.blocks → x ∈ s.cache.objects a →
      x ∉ s.cache.objects slab := by
    intro a x ha hxa hx
    exact hnew (hblocks.object_unique h.size_pos (mem_cons_of_mem _ ha) mem_cons_self
      hxa hx ▸ ha)
  have hlive : liveAmong live (s.cache.objects slab) = [] := by
    refine eq_nil_iff_forall_not_mem.2 fun x hx => ?_
    obtain ⟨hxl, hxo⟩ := mem_liveAmong.1 hx
    obtain ⟨a, ha, hxa⟩ := h.home x hxl
    exact hother ha hxa hxo
  -- the list node is clear, so that taking it off the list of free slabs does nothing
  have hlists : s.cache.OnLists (update s.nodes slab ⟨none, none⟩) [] fs := by
    refine ⟨h.lists.free, h.lists.partials.congr fun x hx => absurd hx not_mem_nil, ?_,
      h.lists.apart⟩
    exact h.lists.fulls.congr fun x hx => update_of_ne
      (fun hxe : x = slab => hfs (hxe ▸ hx)) _ _
  unfold slabPick
  rw [h.lists.partials.first_eq, h.lists.free, heq]
  refine ⟨_, rfl, ?_, rfl, rfl⟩
  refine ⟨h.size_pos, h.capacity, h.order_lt, ?_, hblocks, ?_, ?_, ?_, h.nodup⟩
  · exact onLists_addPartial
      (onLists_removeFree hlists (update_self ..)).2
      not_mem_nil hfs
  · intro a
    show a ∈ slab :: s.blocks ↔ _
    rw [mem_cons, h.mem_blocks]
    simp
  · intro a ha
    rcases mem_cons.1 ha with rfl | ha
    · refine ⟨s.cache.objects a, ?_, ?_, ?_, ?_, ?_⟩
      · simpa [slabMakePartial, SlabHeap.setSlab, SlabHeap.addPartial, SlabHeap.removeFree] using hrep
      · show (_ ++ liveAmong live (s.cache.objects a)).Perm _
        rw [hlive, append_nil]
        exact List.Perm.refl _
      · show _ = BitVec.ofNat 64 (liveAmong live (s.cache.objects a)).length
        rw [hlive]
        simp [slabMakePartial, SlabHeap.addPartial, SlabHeap.removeFree]
      · refine iff_of_false (fun hnil => ?_) hfs
        have hlen : (s.cache.objects a).length = _ := length_objects
        rw [hnil, length_nil] at hlen
        have := h.capacity
        omega
      refine iff_of_false (fun hstate => ?_) hfs
      simp [slabMakePartial, SlabHeap.setSlab, SlabHeap.addPartial] at hstate
    have hne : a ≠ slab := fun heq => hnew (heq ▸ ha)
    have hok := (h.ok a ha).congr (fun y hy => hrest y (hother ha hy)) (List.Perm.refl _)
    show (update (update s.slabs _ _) _ _ a).Ok next (s.cache.objects a) live _
    rw [update_of_ne hne, update_of_ne hne]
    exact hok
  intro x hx
  obtain ⟨a, ha, hxa⟩ := h.home x hx
  exact ⟨a, mem_cons_of_mem _ ha, hxa⟩

/-! ## Taking an object -/

variable (h : s.Inv live ps fs)

include h

/-- **An object is taken from a partial slab.** It was not in use. -/
theorem take (hps : slab ∈ ps) :
    ∃ node s' ps' fs', slabTake s slab = .ok (node, s') ∧ s'.Inv (node :: live) ps' fs' ∧
      node ∈ s.cache.objects slab ∧ s'.blocks = s.blocks ∧
      s'.cache.objects = s.cache.objects := by
  have hslab : slab ∈ s.blocks := (h.mem_blocks slab).2 (.inl hps)
  have hfs : slab ∉ fs := h.lists.apart slab hps
  have hok := h.ok slab hslab
  rw [eq_false hfs] at hok
  obtain ⟨node, hfree, hnode, hlive, hnew⟩ :=
    hok.take (nodup_objects h.size_pos) (some 0xaaaaaaaaaaaaaaaa)
  have hperm : ∀ objs, node ∉ objs → (liveAmong (node :: live) objs).Perm (liveAmong live objs) :=
    fun objs hn => by rw [liveAmong_cons_of_notMem hn]
  have hhome : ∀ y ∈ node :: live, ∃ a ∈ s.blocks, y ∈ s.cache.objects a := by
    intro y hy
    rcases mem_cons.1 hy with rfl | hy
    · exact ⟨slab, hslab, hnode⟩
    exact h.home y hy
  have hnodup : (node :: live).Nodup := nodup_cons.2 ⟨hlive, h.nodup⟩
  unfold slabTake
  simp only [hfree, deref_some, ok_bind]
  by_cases hlast : s.next node = none
  · -- the slab is full now
    rw [if_pos hlast, setSlab_slabs_self, setSlab_setSlab]
    refine ⟨node, _, ps.erase slab, fs ++ [slab], rfl, ?_, hnode, rfl, rfl⟩
    have hps' : slab ∉ ps.erase slab := h.lists.partials.nodup.not_mem_erase
    refine ⟨h.size_pos, h.capacity, h.order_lt, ?_, h.owned, ?_, ?_, hhome, hnodup⟩
    · exact onLists_appendFull
        (onLists_removePartial h.lists hps) hps' hfs
    · intro a
      show a ∈ s.blocks ↔ _
      rw [h.mem_blocks, mem_append]
      by_cases ha : a = slab
      · simp [ha, hps]
      simp [ha]
    have hmem : slab ∈ fs ++ [slab] := mem_append_right fs (mem_singleton_self slab)
    have hnew' := hnew .slabFull ⟨fun _ => hlast, fun _ => rfl⟩
    rw [eq_true hlast, ← eq_true hmem] at hnew'
    exact h.ok_update hslab hnode hnew' hperm fun b hb => by simp [hb]
  rw [if_neg hlast]
  refine ⟨node, _, ps, fs, rfl, ?_, hnode, rfl, rfl⟩
  refine ⟨h.size_pos, h.capacity, h.order_lt, h.lists, h.owned, h.mem_blocks, ?_, hhome, hnodup⟩
  obtain ⟨-, -, -, -, -, hstate⟩ := hok
  have hnew' := hnew (s.slabs slab).state (by rw [hstate]; simp [hlast])
  rw [eq_false hlast, ← eq_false hfs] at hnew'
  exact h.ok_update hslab hnode hnew' hperm fun b _ => Iff.rfl

/-! ## Putting an object back -/

theorem priv_eq (hslab : slab ∈ s.blocks) (hx : x ∈ s.cache.objects slab) :
    s.priv (x / pageSize) = some slab := by
  obtain ⟨h1, h2⟩ := bounds_of_mem_objects h.size_pos hx
  exact h.owned.noted slab hslab x h1 h2

theorem used_erase (hused : s.Used live) (hslab : slab ∈ s.blocks) (hx : x ∈ s.cache.objects slab)
    {a : Nat} (ha : a ∈ s.blocks) (hne : a ≠ slab) : ∃ y ∈ live.erase x, y ∈ s.cache.objects a := by
  obtain ⟨y, hy, hya⟩ := hused a ha
  refine ⟨y, (mem_erase_of_ne fun hyx : y = x => hne ?_).2 hy, hya⟩
  exact h.owned.object_unique h.size_pos ha hslab hya (hyx ▸ hx)

theorem mem_partials (hslab : slab ∈ s.blocks) (hlive : x ∈ live) (hx : x ∈ s.cache.objects slab)
    (hnone : liveAmong (live.erase x) (s.cache.objects slab) = []) : slab ∈ ps := by
  refine ((h.mem_blocks slab).1 hslab).resolve_right fun hfs => ?_
  have hlen := (h.ok slab hslab).length_of_full hfs
  rw [(liveAmong_erase_of_mem hlive hx).length_eq, hnone, length_objects] at hlen
  have hcap := h.capacity
  rw [← hlen, length_singleton] at hcap
  omega

/-- **An object in use is put back.** -/
theorem put (hused : s.Used live) (hlive : x ∈ live) :
    ∃ s' ps' fs', slabFree s x = .ok s' ∧ s'.Inv (live.erase x) ps' fs' ∧
      s'.Used (live.erase x) := by
  obtain ⟨slab, hslab, hx⟩ := h.home x hlive
  have hok := h.ok slab hslab
  obtain ⟨hzero, hnew⟩ := hok.put
    (length_objects ▸ capacity_lt h.order_lt) hlive hx
    (nodup_objects h.size_pos)
  have hperm : ∀ objs, x ∉ objs → (liveAmong (live.erase x) objs).Perm (liveAmong live objs) :=
    fun objs hn => liveAmong_erase_of_notMem hlive hn
  have hhome : ∀ y ∈ live.erase x, ∃ a ∈ s.blocks, y ∈ s.cache.objects a :=
    fun y hy => h.home y (mem_of_mem_erase hy)
  have hnodup := h.nodup.erase x
  unfold slabFree
  rw [h.priv_eq hslab hx, deref_some, ok_bind]
  unfold slabPut
  simp only [setNext_setNext]
  by_cases hcount : (s.slabs slab).allocatedCount - 1 = 0
  · -- the slab goes back to the memory manager
    rw [if_pos hcount]
    have hnone := hzero.1 hcount
    have hps := h.mem_partials hslab hlive hx hnone
    have hfs := h.lists.apart slab hps
    have hmem : ∀ {a}, a ∈ s.blocks.erase slab ↔ a ≠ slab ∧ a ∈ s.blocks := h.owned.nodup.mem_erase_iff
    refine ⟨_, ps.erase slab, fs, rfl, ?_, ?_⟩
    · refine ⟨h.size_pos, h.capacity, h.order_lt, ?_, h.owned.erase, ?_, ?_, ?_, hnodup⟩
      · exact onLists_removePartial h.lists hps
      · intro a
        show a ∈ s.blocks.erase slab ↔ _
        rw [hmem, h.mem_blocks, h.lists.partials.nodup.mem_erase_iff]
        constructor
        · grind
        grind
      · intro a ha
        have hnew' := hnew .slabFree (by simp)
        rw [← eq_false hfs] at hnew'
        exact h.ok_update hslab hx hnew' hperm (fun b _ => Iff.rfl) a (hmem.1 ha).2
      intro y hy
      obtain ⟨a, ha, hya⟩ := hhome y hy
      refine ⟨a, hmem.2 ⟨fun heq => ?_, ha⟩, hya⟩
      have := mem_liveAmong.2 ⟨hy, heq ▸ hya⟩
      rw [hnone] at this
      exact not_mem_nil this
    intro a ha
    exact h.used_erase hused hslab hx (hmem.1 ha).2 (hmem.1 ha).1
  rw [if_neg hcount]
  have hused' : ∀ a ∈ s.blocks, ∃ y ∈ live.erase x, y ∈ s.cache.objects a := by
    intro a ha
    by_cases heq : a = slab
    · obtain ⟨y, hy⟩ := exists_mem_of_ne_nil _ fun hnil => hcount (hzero.2 hnil)
      exact ⟨y, (mem_liveAmong.1 hy).1, heq ▸ (mem_liveAmong.1 hy).2⟩
    exact h.used_erase hused hslab hx ha heq
  obtain ⟨-, -, -, -, -, hstate⟩ := hok
  by_cases hfull : (s.slabs slab).state = .slabFull
  · -- the slab is not full anymore
    rw [if_pos hfull]
    have hfs := hstate.1 hfull
    have hps : slab ∉ ps := fun hp => h.lists.apart slab hp hfs
    have hfs' : slab ∉ fs.erase slab := h.lists.fulls.nodup.not_mem_erase
    refine ⟨_, slab :: ps, fs.erase slab, rfl, ?_, hused'⟩
    refine ⟨h.size_pos, h.capacity, h.order_lt, ?_, h.owned, ?_, ?_, hhome, hnodup⟩
    · exact onLists_addPartial
        (onLists_removeFull h.lists hfs) hps hfs'
    · intro a
      show a ∈ s.blocks ↔ _
      rw [h.mem_blocks]
      by_cases ha : a = slab <;> simp [ha, hfs]
    have hnew' := hnew .slabPartial (by simp)
    rw [← eq_false hfs'] at hnew'
    exact h.ok_update hslab hx hnew' hperm fun b hb => mem_erase_of_ne hb
  rw [if_neg hfull]
  have hfs : slab ∉ fs := fun hf => hfull (hstate.2 hf)
  refine ⟨_, ps, fs, rfl, ?_, hused'⟩
  refine ⟨h.size_pos, h.capacity, h.order_lt, h.lists, h.owned, h.mem_blocks, ?_, hhome, hnodup⟩
  have hnew' := hnew (s.slabs slab).state hfull
  rw [← eq_false hfs] at hnew'
  exact h.ok_update hslab hx hnew' hperm fun b _ => Iff.rfl

end SlabHeap.Inv

end Stanix

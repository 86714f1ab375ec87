import Stanix.Mem.Kheap.Rep

/-!
# Freeing in the kernel heap

`kfree` marks a segment as free and merges it with its next and its previous segment if these are
free: `Kheap.Rep.kfree` says what is left of the pieces. A heap where no two free segments follow
each other stays one, because both neighbours of the result are then in use.
-/

namespace Stanix

open List Function Tiling Exec

/-- No two free segments follow each other. -/
def Coalesced (cs : List Piece) : Prop := cs.IsChain fun a b => a.used = true ∨ b.used = true

theorem Coalesced.insert {l r : List Piece} {c : Piece} (hl : Coalesced l) (hr : Coalesced r)
    (hlast : ∀ d ∈ l.getLast?, d.used = true) (hhead : ∀ d ∈ r.head?, d.used = true) :
    Coalesced (l ++ c :: r) := by
  refine isChain_append.2 ⟨hl, isChain_cons.2 ⟨fun d hd => .inr (hhead d hd), hr⟩, ?_⟩
  exact fun d hd _ _ => .inl (hlast d hd)

theorem Coalesced.sides {l r : List Piece} {c : Piece} (h : Coalesced (l ++ c :: r)) :
    Coalesced l ∧ Coalesced r ∧ (c.used = false →
      (∀ d ∈ l.getLast?, d.used = true) ∧ ∀ d ∈ r.head?, d.used = true) := by
  obtain ⟨hl, hcr, hseam⟩ := isChain_append.1 h
  obtain ⟨hhead, hr⟩ := isChain_cons.1 hcr
  refine ⟨hl, hr, fun hc => ⟨fun d hd => ?_, fun d hd => ?_⟩⟩
  · exact (hseam d hd c rfl).resolve_right (by simp [hc])
  exact (hhead d hd).resolve_left (by simp [hc])

theorem usedFrom_merge {hd p : Nat} {l r : List Piece} {c d : Piece} (hc : c.used = false)
    (hd' : d.used = false) :
    usedFrom hd p (l ++ ⟨c.len + (d.len + hd), c.used⟩ :: r) =
      usedFrom hd p (l ++ c :: d :: r) := by
  have hoffset : ∀ q, q + (hd + (c.len + (d.len + hd))) = q + (hd + c.len) + (hd + d.len) := by
    omega
  simp [usedFrom_append, usedFrom, hc, hd', hoffset]

namespace Kheap.Rep

variable {s : Kheap} {l r : List Piece} {c : Piece}

theorem addr_ne_zero (h : s.Rep (l ++ r)) : s.addr l ≠ 0 := by
  have hpos := h.pos
  unfold addr
  omega

theorem addr_lt_concat : s.addr l < s.addr (l ++ [c]) := by
  rw [addr_concat]
  simp only [heapSegmentSize]
  omega

/-- **A segment takes in the one behind it**: its length, and its next pointer. `back` is where the two
merges of `kfree` have the address of the first segment from. -/
theorem absorb {d : Piece} (h : s.Rep (l ++ c :: d :: r)) (back : HeapSegment → Nat)
    (hback : back (s.mem (s.addr (l ++ [c]))) = s.addr l) :
    ∃ s', (do
        let s1 ← kheapModify s (s.addr l) fun g =>
          { g with length := wrap (g.length + (d.len + heapSegmentSize)) }
        let seg ← kheapLoad s1 (s.addr (l ++ [c]))
        let s2 ← if seg.next ≠ 0 then kheapModify s1 seg.next fun g => { g with prev := back seg }
          else .ok s1
        let seg ← kheapLoad s2 (s.addr (l ++ [c]))
        kheapModify s2 (back seg) fun g => { g with next := seg.next }) = .ok s' ∧
      s'.start = s.start ∧ s'.Rep (l ++ ⟨c.len + (d.len + heapSegmentSize), c.used⟩ :: r) := by
  have h' : s.Rep ((l ++ [c]) ++ d :: r) := by simpa using h
  have hx : s.addr l ≠ 0 := h.addr_ne_zero
  have hy : s.addr (l ++ [c]) ≠ 0 := h'.addr_ne_zero
  have hxy := addr_lt_concat (s := s) (l := l) (c := c)
  have hyz := addr_lt_concat (s := s) (l := l ++ [c]) (c := d)
  have hnext : (s.mem (s.addr (l ++ [c]))).next = if r = [] then 0 else s.addr (l ++ [c, d]) := by
    rw [h'.mem_eq, append_assoc, singleton_append]
  rw [append_assoc, singleton_append] at hyz
  simp only [kheapModify_eq hx, kheapLoad_eq hy, ok_bind, update_of_ne hxy.ne', hback,
    hnext, h.mem_eq, h.wrap_merge]
  -- whether there is a third segment decides if its back link is written
  cases r with
  | nil =>
    simp only [if_true, ne_eq, update_self]
    refine ⟨_, rfl, rfl, h.merge ?_ (fun hr => absurd rfl hr) fun a ha _ => ?_⟩
    · rw [update_self]
      rfl
    rw [update_of_ne ha, update_of_ne ha]
  | cons e r => ?_
  have h'' : s.Rep ((l ++ [c, d]) ++ e :: r) := by simpa using h
  have hz := h''.addr_ne_zero
  have hxz := hxy.trans hyz
  simp only [if_neg (cons_ne_nil e r), ne_eq, hz, not_false_eq_true, if_true, ok_bind,
    kheapModify_eq hx, kheapModify_eq hz, update_of_ne hxy.ne',
    update_of_ne hyz.ne, hnext, update_of_ne hxz.ne,
    update_of_ne hxz.ne', hback, update_self]
  refine ⟨_, rfl, rfl, h.merge ?_ (fun _ => ?_) fun a ha ha' => ?_⟩
  · rw [update_self, if_neg (cons_ne_nil e r)]
  · rw [update_of_ne hxz.ne', update_self]
  rw [update_of_ne ha, update_of_ne ha', update_of_ne ha]

variable (h : s.Rep (l ++ c :: r))

include h

/-- **A free segment takes in the next one** if that is free too. -/
theorem mergeNext (hfree : c.used = false) :
    ∃ s' c' r', kfreeMergeNext s (s.addr l) = .ok s' ∧ s'.start = s.start ∧
      s'.Rep (l ++ c' :: r') ∧ c'.used = false ∧
      usedFrom heapSegmentSize s.start (l ++ c' :: r') = usedFrom heapSegmentSize s.start (l ++ c :: r) ∧
      ((c' = c ∧ r' = r ∧ ∀ d ∈ r.head?, d.used = true) ∨
        ∃ d, r = d :: r' ∧ d.used = false) := by
  unfold kfreeMergeNext
  rw [kheapLoad_eq h.addr_ne_zero, ok_bind, h.mem_eq]
  cases r with
  | nil =>
    exact ⟨s, c, [], rfl, rfl, h, hfree, rfl, .inl ⟨rfl, rfl, by simp⟩⟩
  | cons d r => ?_
  have h' : s.Rep ((l ++ [c]) ++ d :: r) := by simpa using h
  have hy : s.addr (l ++ [c]) ≠ 0 := h'.addr_ne_zero
  rw [if_neg (cons_ne_nil d r), if_neg hy, kheapLoad_eq hy, ok_bind, h'.mem_eq]
  simp only [heapSegMagic_eq_free]
  by_cases hd : d.used = false
  · rw [if_pos hd]
    obtain ⟨s', hrun, hstart, hrep⟩ := h.absorb (fun _ => s.addr l) rfl
    exact ⟨s', _, r, hrun, hstart, hrep, hfree, usedFrom_merge hfree hd, .inr ⟨d, rfl, hd⟩⟩
  rw [if_neg hd]
  refine ⟨s, c, d :: r, rfl, rfl, h, hfree, rfl, .inl ⟨rfl, rfl, ?_⟩⟩
  simpa using hd

/-- **A free segment is taken in by the previous one** if that is free too. -/
theorem mergePrev (hfree : c.used = false) :
    ∃ s' l' c', kfreeMergePrev s (s.addr l) = .ok s' ∧ s'.start = s.start ∧
      s'.Rep (l' ++ c' :: r) ∧ c'.used = false ∧
      usedFrom heapSegmentSize s.start (l' ++ c' :: r) = usedFrom heapSegmentSize s.start (l ++ c :: r) ∧
      ((c' = c ∧ l' = l ∧ ∀ d ∈ l.getLast?, d.used = true) ∨
        ∃ d, l = l' ++ [d] ∧ d.used = false) := by
  have hmem := h.mem_eq
  unfold kfreeMergePrev
  rw [kheapLoad_eq h.addr_ne_zero, ok_bind, hmem]
  rcases eq_nil_or_concat l with rfl | ⟨l, d, rfl⟩
  · exact ⟨s, [], c, rfl, rfl, h, hfree, rfl, .inl ⟨rfl, rfl, by simp⟩⟩
  rw [concat_eq_append] at *
  have h' : s.Rep (l ++ d :: c :: r) := by simpa using h
  have hy : s.addr l ≠ 0 := h'.addr_ne_zero
  rw [back_concat] at hmem ⊢
  rw [if_neg hy, kheapLoad_eq hy, ok_bind, h'.mem_eq]
  simp only [heapSegMagic_eq_free]
  by_cases hd : d.used = false
  · rw [if_pos hd]
    obtain ⟨s', hrun, hstart, hrep⟩ := h'.absorb HeapSegment.prev (by rw [hmem])
    refine ⟨s', l, _, hrun, hstart, hrep, hd, ?_, .inr ⟨d, rfl, hd⟩⟩
    rw [usedFrom_merge hd hfree, append_assoc, singleton_append]
  rw [if_neg hd]
  refine ⟨s, l ++ [d], c, rfl, rfl, h, hfree, rfl, .inl ⟨rfl, rfl, ?_⟩⟩
  simpa using hd

/-- **`kfree` of a segment in use.** All other segments in use stay as they are. -/
theorem kfree (hco : Coalesced (l ++ c :: r)) (hused : c.used = true) :
    ∃ s' cs', kfree s (s.addr l + heapSegmentSize) = .ok s' ∧ s'.Rep cs' ∧ Coalesced cs' ∧
      s'.start = s.start ∧ usedFrom heapSegmentSize s.start cs' =
        usedFrom heapSegmentSize s.start l ++ usedFrom heapSegmentSize (s.addr (l ++ [c])) r := by
  have hx : s.addr l ≠ 0 := h.addr_ne_zero
  have hlt := h.block_lt
  have hptr : wrapSub (s.addr l + heapSegmentSize) heapSegmentSize = s.addr l := by
    rw [wrapSub_of_le (Nat.le_add_left _ _) hlt, Nat.add_sub_cancel]
  obtain ⟨s1, hmark, h1, hstart1⟩ := h.mark false
  have haddr1 : s1.addr l = s.addr l := by rw [addr, hstart1]; rfl
  obtain ⟨s2, c2, r2, hnext, hstart2, h2, hfree2, hused2, hcase2⟩ := h1.mergeNext rfl
  have haddr2 : s2.addr l = s.addr l := by rw [addr, hstart2, hstart1]; rfl
  obtain ⟨s3, l3, c3, hprev, hstart3, h3, hfree3, hused3, hcase3⟩ := h2.mergePrev hfree2
  refine ⟨s3, l3 ++ c3 :: r2, ?_, h3, ?_, by rw [hstart3, hstart2, hstart1], ?_⟩
  · unfold Stanix.kfree
    rw [if_neg (by omega)]
    simp only [hptr, kheapLoad_eq hx, ok_bind, h.mem_eq, hused]
    rw [haddr1] at hnext
    rw [haddr2] at hprev
    simp only [heapSegMagic, Bool.false_eq_true, if_false] at hmark
    simp [heapSegMagic, hmark, hnext, hprev]
  · obtain ⟨hl, hr, -⟩ := hco.sides
    have hright : Coalesced r2 ∧ ∀ d ∈ r2.head?, d.used = true := by
      rcases hcase2 with ⟨-, rfl, hhead⟩ | ⟨d, rfl, hd⟩
      · exact ⟨hr, hhead⟩
      obtain ⟨-, hr2, hside⟩ := Coalesced.sides (l := []) hr
      exact ⟨hr2, (hside hd).2⟩
    have hleft : Coalesced l3 ∧ ∀ d ∈ l3.getLast?, d.used = true := by
      rcases hcase3 with ⟨-, rfl, hlast⟩ | ⟨d, rfl, hd⟩
      · exact ⟨hl, hlast⟩
      obtain ⟨hl3, -, hside⟩ := Coalesced.sides hl
      exact ⟨hl3, (hside hd).1⟩
    exact hleft.1.insert hright.1 hleft.2 hright.2
  rw [hstart2] at hused3
  rw [hstart1] at hused2 hused3
  rw [hused3, hused2, usedFrom_append, addr_concat]
  rfl

end Kheap.Rep

end Stanix

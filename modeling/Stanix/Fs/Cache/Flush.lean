import Stanix.Fs.Cache.Frame

/-!
# Writing a range back

`cache_flush` over a cache whose write operations succeed. The loop of `cache_raw_flush_async` hands
every dirty page it visits to the write operation once (`Flushing` is what holds from page to page),
and the loop behind it only waits. But `cache_foreach_range` starts at the page whose *index* is the
byte offset of the range, so that the dirty pages before it are left out: the range is written back
exactly if there are none (`cache_flush_iff`).
-/

namespace Stanix

open List CacheState Exec Option Except Sparse

namespace CacheState

variable {s s' : CacheState} {cache page : Nat} {batch : List Nat}

/-! ## The body of the loop -/

/-- A dirty page, once its flag is cleared, goes into the batch after quiet changes. -/
theorem flushDirty_spec {r : (CacheState × List Nat) × Option (Except Errno Unit)}
    (hs : s.Harmless page) (hcache : (s.page page).cache ≠ none)
    (h : s.flushDirty cache page batch = .ok r) :
    ∃ s1, Quiet (· = page) [] s s1 ∧ s1.flushBatch cache page batch = r := by
  have hp : (fun q => q = page) page := rfl
  obtain ⟨⟨r1, s1⟩, h1, hrest⟩ := bind_eq_ok.1 h
  obtain ⟨s2, h2, hrest⟩ := bind_eq_ok.1 hrest
  obtain ⟨s3, h3, hrest⟩ := bind_eq_ok.1 hrest
  have hretain : Quiet (· = page) [] s (s.pmmRetain page) := quiet_retain hp
  have hharm : (s.pmmRetain page).Harmless page := by
    rcases hs with hidle | hends
    · refine .inl ?_
      unfold pmmRetain
      split
      · exact hidle
      rw [modifyPage_self]
      exact hidle
    exact .inr fun e he => hends e ((hretain.ends page).subset he)
  obtain ⟨hwait, hharm⟩ := quiet_waitNoIo (P := (· = page)) rfl hharm h1
  have hquiet := ((hretain.andThen hwait).andThen (quiet_acquireWriting hp hharm h2)).andThen
    (quiet_acquireLock hp h3)
  unfold flushLocked at hrest
  split at hrest
  · next hnone =>
    rw [(hquiet.kept page).cache] at hnone
    exact absurd hnone hcache
  obtain ⟨s4, h4, hr⟩ := bind_eq_ok.1 hrest
  exact ⟨s4, hquiet.andThen (quiet_releaseLock hp h4), ok.inj hr⟩

theorem flushBatch_spec {st : CacheState × List Nat} {r : Option (Except Errno Unit)}
    (hwrite : (s.cache cache).hasWrite = true) (hok : ∀ a ∈ s.input.writes, IoAnswer.Succeeds a)
    (h : s.flushBatch cache page batch = (st, r)) :
    r = none ∧ ∃ new, Quiet (· ∈ batch) new s st.1 ∧ new ++ st.2 = batch ++ [page] := by
  unfold flushBatch at h
  split at h
  · cases h
    exact ⟨rfl, [], .refl _ s, rfl⟩
  obtain ⟨hr, hquiet⟩ := quiet_writePages (fun q hq => hq) hwrite hok
    (rfl : s.cacheWritePages cache batch = _)
  split at h
  · next heq =>
    rw [heq] at hr
    cases hr
  next heq =>
  rw [heq] at hquiet
  cases h
  exact ⟨rfl, batch, hquiet, rfl⟩

/-! ## The loop -/

/-- The pages of a cache know their place in it, which is a number of 42 bits. -/
structure Owns (s : CacheState) (cache : Nat) : Prop where
  owner : ∀ i p, (s.cache cache).pages.lookup i = some p → (s.page p).cache = some cache
  offset : ∀ i p, (s.cache cache).pages.lookup i = some p → (s.page p).offset = i
  bound : ∀ i p, (s.cache cache).pages.lookup i = some p → i < 2 ^ 42

/-- Every write operation takes its batch, and no I/O in progress ends with an error. -/
structure WritesSucceed (s : CacheState) : Prop where
  writes : ∀ a ∈ s.input.writes, IoAnswer.Succeeds a
  ends : ∀ p, ∀ e ∈ s.input.ends p, e = .interrupted ∨ e = .done (.ok ())

theorem WritesSucceed.quiet {P : Nat → Prop} {new : List Nat} (h : s.WritesSucceed)
    (hq : Quiet P new s s') : s'.WritesSucceed :=
  ⟨fun a ha => h.writes a (hq.writes.subset ha), fun p e he => h.ends p e ((hq.ends p).subset he)⟩

/-- A page of a cache in a range of indices that is visited up to the index `n`, and was dirty. -/
def Visited (s : CacheState) (cache start stop n page : Nat) : Prop :=
  ∃ i, (s.cache cache).pages.lookup i = some page ∧ start ≤ i ∧ i < n ∧
    wrap (i * pageSize) < stop ∧ (s.page page).dirty = true

/-- What holds when the loop of `cache_raw_flush_async` has come to the index `n`: the pages it has
found dirty are clean and were handed over or are in the batch, once, and nothing else has changed. -/
structure Flushing (s₀ : CacheState) (cache start stop n : Nat) (st : CacheState × List Nat) :
    Prop where
  start_le : start ≤ n
  pages : (st.1.cache cache).pages = (s₀.cache cache).pages
  size : (st.1.cache cache).size = (s₀.cache cache).size
  hasWrite : (st.1.cache cache).hasWrite = true
  succeed : st.1.WritesSucceed
  place : ∀ q, (st.1.page q).cache = (s₀.page q).cache
  passed : ∃ new, st.1.passed = s₀.passed ++ new ∧
    (∀ q, s₀.Visited cache start stop n q →
      (new ++ st.2).count q = 1 ∧ (st.1.page q).dirty = false) ∧
    ∀ q, ¬ s₀.Visited cache start stop n q → q ∉ new ++ st.2 ∧ st.1.page q = s₀.page q

section Loop

variable {s₀ : CacheState} {start stop n i : Nat} {st st' : CacheState × List Nat}
  {x : Option (Except Errno Unit)}

theorem visited_succ (hn : start ≤ n) (hfirst : (s₀.cache cache).pages.firstFrom n = some (i, page))
    (hmore : wrap (i * pageSize) < stop) (q : Nat) :
    s₀.Visited cache start stop (i + 1) q ↔
      s₀.Visited cache start stop n q ∨ q = page ∧ (s₀.page page).dirty = true := by
  obtain ⟨hni, hi, hgap⟩ := firstFrom_eq_some.1 hfirst
  constructor
  · rintro ⟨j, hj, hsj, hlt, hm, hd⟩
    by_cases hjn : j < n
    · exact .inl ⟨j, hj, hsj, hjn, hm, hd⟩
    grind
  rintro (⟨j, hj, hsj, hlt, hm, hd⟩ | ⟨rfl, hd⟩)
  · exact ⟨j, hj, hsj, by omega, hm, hd⟩
  exact ⟨i, hi, by omega, by omega, hmore, hd⟩

theorem not_visited_first (hown : s₀.Owns cache)
    (hfirst : (s₀.cache cache).pages.firstFrom n = some (i, page)) :
    ¬ s₀.Visited cache start stop n page := by
  obtain ⟨hni, hi, -⟩ := firstFrom_eq_some.1 hfirst
  rintro ⟨j, hj, -, hlt, -, -⟩
  have := (hown.offset j page hj).symm.trans (hown.offset i page hi)
  omega

/-- **One page.** -/
theorem Flushing.step (hown : s₀.Owns cache) (h : s₀.Flushing cache start stop n st)
    (hfirst : (st.1.cache cache).pages.firstFrom n = some (i, page))
    (hmore : wrap (i * pageSize) < stop) {r : Option (Except Errno Unit)}
    (hrun : flushBody cache page st = .ok (st', r)) :
    r = none ∧ s₀.Flushing cache start stop (i + 1) st' := by
  rw [h.pages] at hfirst
  have hni := (firstFrom_eq_some.1 hfirst).1
  have hi := (firstFrom_eq_some.1 hfirst).2.1
  have hstart := h.start_le
  have hnot : ¬ s₀.Visited cache start stop n page := not_visited_first hown hfirst
  have hsucc := visited_succ h.start_le hfirst hmore
  obtain ⟨new, hnew, hdone, hrest⟩ := h.passed
  have hpage := (hrest page hnot).2
  unfold flushBody at hrun
  cases hd : (st.1.page page).dirty with
  | false =>
    rw [clear_of_clean hd] at hrun
    cases hrun
    have hsame (q : Nat) : s₀.Visited cache start stop (i + 1) q ↔
        s₀.Visited cache start stop n q := by
      rw [hsucc q, ← hpage, hd]
      simp
    exact ⟨rfl, by omega, h.pages, h.size, h.hasWrite, h.succeed, h.place, new, hnew,
      fun q hq => hdone q ((hsame q).1 hq), fun q hq => hrest q (mt (hsame q).2 hq)⟩
  | true => ?_
  obtain ⟨s1, hclear, hc⟩ := clear_of_dirty hd cache
  rw [hclear] at hrun
  have hplace : (s1.page page).cache ≠ none := by
    rw [hc.self]
    rw [hpage, hown.owner i page hi]
    exact some_ne_none _
  obtain ⟨s2, hq2, hbatch⟩ := flushDirty_spec
    (.inr fun e he => h.succeed.ends page e (hc.input ▸ he)) hplace hrun
  have hsucceed1 : s1.WritesSucceed :=
    ⟨fun a ha => h.succeed.writes a (hc.input ▸ ha), fun p e he => h.succeed.ends p e (hc.input ▸ he)⟩
  have hsucceed2 := hsucceed1.quiet hq2
  have hwrite1 := (hc.field (·.hasWrite) (fun _ _ => rfl) cache).trans h.hasWrite
  obtain ⟨hr, more, hq3, hmoved⟩ :=
    flushBatch_spec (by rw [hq2.cache]; exact hwrite1) hsucceed2.writes hbatch
  have hcache : st'.1.cache = s1.cache := hq3.cache.trans hq2.cache
  have hlist : (new ++ more) ++ st'.2 = (new ++ st.2) ++ [page] := by
    rw [append_assoc, hmoved, append_assoc]
  refine ⟨hr, by omega, ?_, ?_, by rw [hcache]; exact hwrite1, hsucceed2.quiet hq3, fun q => ?_,
    new ++ more, ?_, fun q hq => ?_, fun q hq => ?_⟩
  · rw [hcache]
    exact (hc.field (·.pages) (fun _ _ => rfl) cache).trans h.pages
  · rw [hcache]
    exact (hc.field (·.size) (fun _ _ => rfl) cache).trans h.size
  · rw [(hq3.kept q).cache, (hq2.kept q).cache]
    by_cases hqp : q = page
    · subst hqp
      rw [hc.self]
      exact h.place q
    rw [hc.others q hqp]
    exact h.place q
  · rw [hq3.passed, hq2.passed, hc.passed, hnew, append_nil, append_assoc]
  · -- the page itself is clean now, the others were before
    rw [hlist, count_append, count_singleton, (hq3.kept q).dirty, (hq2.kept q).dirty]
    rcases (hsucc q).1 hq with hold | ⟨rfl, -⟩
    · have hqp : q ≠ page := fun heq => hnot (heq ▸ hold)
      rw [hc.others q hqp, if_neg (by simpa using Ne.symm hqp)]
      exact hdone q hold
    rw [hc.self, count_eq_zero.2 (hrest q hnot).1]
    simp
  rw [hsucc q, not_or, not_and] at hq
  have hqp : q ≠ page := fun heq => hq.2 heq (hpage ▸ hd)
  obtain ⟨hmem, hsame⟩ := hrest q hq.1
  rw [hlist, mem_append, mem_singleton, not_or]
  refine ⟨⟨hmem, hqp⟩, ?_⟩
  rw [hq3.page q fun hb => hmem (mem_append_right _ hb), hq2.page q hqp, hc.others q hqp, hsame]

/-- A page that the loop over a range of indices finds dirty. -/
def Target (s : CacheState) (cache start stop page : Nat) : Prop :=
  ∃ i, (s.cache cache).pages.lookup i = some page ∧ start ≤ i ∧ wrap (i * pageSize) < stop ∧
    (s.page page).dirty = true

/-- Where the loop over a range has ended, all of it is visited: the indices of pages are so small
that their offsets do not wrap around. -/
theorem visited_iff_target {k : Nat} (hown : s₀.Owns cache)
    (hend : ∀ i a, (s₀.cache cache).pages.firstFrom k = some (i, a) →
      decide (wrap (i * pageSize) < stop) = false) (q : Nat) :
    s₀.Visited cache start stop k q ↔ s₀.Target cache start stop q := by
  constructor
  · rintro ⟨i, hi, hs, -, hm, hd⟩
    exact ⟨i, hi, hs, hm, hd⟩
  rintro ⟨i, hi, hs, hm, hd⟩
  refine ⟨i, hi, hs, ?_, hm, hd⟩
  by_contra hlt
  cases hfirst : (s₀.cache cache).pages.firstFrom k with
  | none =>
    rw [firstFrom_eq_none.1 hfirst i (by omega)] at hi
    cases hi
  | some e => ?_
  obtain ⟨j, a⟩ := e
  obtain ⟨-, hj, hgap⟩ := firstFrom_eq_some.1 hfirst
  have hji : j ≤ i := by grind
  have hbound := hown.bound i q hi
  have hover := of_decide_eq_false (hend j a hfirst)
  unfold pageSize at hover hm
  rw [wrap_of_lt (by omega)] at hover hm
  omega

/-- **`cache_raw_flush_async`** hands the dirty pages it visits over, each once, and cleans them. -/
theorem rawFlush_spec {offset size : Nat} {r : Except Errno Unit} (hown : s₀.Owns cache)
    (hok : s₀.WritesSucceed) (hwrite : (s₀.cache cache).hasWrite = true)
    (h : s₀.cacheRawFlushAsync cache offset size = .ok (r, s')) :
    r = .ok () ∧ ∃ k, s₀.Flushing cache (cacheGetRange (s₀.cache cache).size offset size).1
        (cacheGetRange (s₀.cache cache).size offset size).2 k (s', []) ∧
      ∀ q, s₀.Visited cache (cacheGetRange (s₀.cache cache).size offset size).1
          (cacheGetRange (s₀.cache cache).size offset size).2 k q ↔
        s₀.Target cache (cacheGetRange (s₀.cache cache).size offset size).1
          (cacheGetRange (s₀.cache cache).size offset size).2 q := by
  rw [cacheRawFlushAsync, if_pos hwrite] at h
  generalize cacheGetRange (s₀.cache cache).size offset size = range at h ⊢
  obtain ⟨⟨⟨s1, batch⟩, x⟩, hloop, hrest⟩ := bind_eq_ok.1 h
  have hinit : s₀.Flushing cache range.1 range.2 range.1 (s₀, []) := by
    refine ⟨le_rfl, rfl, rfl, hwrite, hok, fun _ => rfl, [], (append_nil _).symm, ?_, ?_⟩
    · rintro q ⟨i, -, hs, hlt, -⟩
      omega
    exact fun q _ => ⟨not_mem_nil, rfl⟩
  rcases foreachFrom_spec (Q := fun _ _ => False)
    (fun n i p st st' hJ hfirst hmore hbody =>
      (hJ.step hown hfirst (of_decide_eq_true hmore) hbody).2)
    (fun n i p st st' x hJ hfirst hmore hbody => by
      cases (hJ.step hown hfirst (of_decide_eq_true hmore) hbody).1)
    hinit hloop with ⟨rfl, k, -, hJ, hend⟩ | ⟨x, -, hx⟩
  swap
  · exact hx.elim
  rw [hJ.pages] at hend
  have htarget (q : Nat) : s₀.Visited cache range.1 range.2 _ q ↔ s₀.Target cache range.1 range.2 q :=
    visited_iff_target hown hend q
  replace hrest : flushRest cache ((s1, batch), none) = (r, s') := ok.inj hrest
  unfold flushRest at hrest
  dsimp only at hrest
  split at hrest
  · next hnil =>
    cases hrest
    subst hnil
    exact ⟨rfl, k, hJ, htarget⟩
  obtain ⟨hr, hquiet⟩ := quiet_writePages (fun q hq => hq) hJ.hasWrite
    hJ.succeed.writes hrest
  obtain ⟨new, hnew, hdone, hkeep⟩ := hJ.passed
  refine ⟨hr, k, ⟨hJ.start_le, ?_, ?_, ?_, hJ.succeed.quiet hquiet, fun q => ?_, new ++ batch, ?_,
    fun q hq => ?_, fun q hq => ?_⟩, htarget⟩
  · rw [hquiet.cache]
    exact hJ.pages
  · rw [hquiet.cache]
    exact hJ.size
  · rw [hquiet.cache]
    exact hJ.hasWrite
  · exact (hquiet.kept q).cache.trans (hJ.place q)
  · rw [hquiet.passed, hnew, append_assoc]
  · rw [append_nil, (hquiet.kept q).dirty]
    exact hdone q hq
  obtain ⟨hmem, hsame⟩ := hkeep q hq
  rw [append_nil, hquiet.page q fun hb => hmem (mem_append_right _ hb)]
  exact ⟨hmem, hsame⟩

/-- A page that the loop over a range of indices finds. -/
def InRange (s : CacheState) (cache start stop page : Nat) : Prop :=
  ∃ i, (s.cache cache).pages.lookup i = some page ∧ start ≤ i ∧ wrap (i * pageSize) < stop

/-- The body of the loop of `cache_flush` that waits for the pages. -/
theorem flushWaitBody_spec (hok : s.WritesSucceed) {P : Nat → Prop} (hp : P page)
    (h : flushWaitBody cache page s = .ok (s', x)) :
    (∃ e, x = some (.error e)) ∨ x = none ∧ Quiet P [] s s' := by
  obtain ⟨⟨r, s1⟩, hwait, hrest⟩ := bind_eq_ok.1 h
  cases r with
  | error e =>
    cases hrest
    exact .inl ⟨e, rfl⟩
  | ok _ =>
    cases hrest
    exact .inr ⟨rfl, quiet_waitWritten hp (.inr (hok.ends page)) hwait⟩

/-- The loop of `cache_flush` that waits for the pages. -/
theorem flushWait_spec (hok : s₀.WritesSucceed)
    (h : cacheForeachRange cache start stop id (flushWaitBody cache) s₀ = .ok (s', x)) :
    (∃ e, x = some (.error e)) ∨ x = none ∧ Quiet (s₀.InRange cache start stop) [] s₀ s' := by
  have hbody (n i p : Nat) (s s' : CacheState) (x : Option (Except Errno Unit))
      (hJ : start ≤ n ∧ Quiet (s₀.InRange cache start stop) [] s₀ s)
      (hfirst : (s.cache cache).pages.firstFrom n = some (i, p))
      (hmore : decide (wrap (i * pageSize) < stop) = true)
      (hrun : flushWaitBody cache p s = .ok (s', x)) :
      (∃ e, x = some (.error e)) ∨
        x = none ∧ start ≤ i + 1 ∧ Quiet (s₀.InRange cache start stop) [] s₀ s' := by
    obtain ⟨hn, hquiet⟩ := hJ
    rw [hquiet.cache] at hfirst
    obtain ⟨hni, hi, -⟩ := firstFrom_eq_some.1 hfirst
    have hin : s₀.InRange cache start stop p := ⟨i, hi, by omega, of_decide_eq_true hmore⟩
    rcases flushWaitBody_spec (hok.quiet hquiet) hin hrun with he | ⟨hx, hq⟩
    · exact .inl he
    exact .inr ⟨hx, by omega, hquiet.andThen hq⟩
  have hinit : start ≤ start ∧ Quiet (s₀.InRange cache start stop) [] s₀ s₀ := ⟨le_rfl, .refl _ s₀⟩
  rcases foreachFrom_spec
    (J := fun n s => start ≤ n ∧ Quiet (s₀.InRange cache start stop) [] s₀ s)
    (Q := fun x _ => ∃ e, x = error e)
    (fun n i p s s' hJ hfirst hmore hrun => by grind)
    (fun n i p s s' x hJ hfirst hmore hrun => by grind)
    hinit h with ⟨hx, -, -, ⟨-, hquiet⟩, -⟩ | ⟨x, rfl, e, rfl⟩
  · exact .inr ⟨hx, hquiet⟩
  exact .inl ⟨e, rfl⟩

end Loop

/-! ## The range -/

/-- The page with the index `i` meets the bytes of a request that lie in the cache. -/
def Meets (cacheSize offset size i : Nat) : Prop :=
  ∃ x, offset ≤ x ∧ x < min (offset + size) cacheSize ∧ x / pageSize = i

/-- The page with the index `i` lies in the request rounded to pages. -/
def Rounded (cacheSize offset size i : Nat) : Prop :=
  pageAlignDown offset ≤ i * pageSize ∧
    i * pageSize < (min (offset + size) cacheSize + pageSize - 1) / pageSize * pageSize

section Range

variable {cacheSize offset size i n : Nat}

theorem pageAlignUp_eq (hn : n < 2 ^ 64) : pageAlignUp n =
    if n + pageSize ≤ 2 ^ 64 then (n + pageSize - 1) / pageSize * pageSize else 0 := by
  unfold pageAlignUp wrap pageSize
  split <;> omega

theorem pageAlignUp_le (n : Nat) : pageAlignUp n ≤ (n + pageSize - 1) / pageSize * pageSize :=
  Nat.mul_le_mul_right _ (Nat.div_le_div_right (Nat.mod_le _ _))

variable (hcache : cacheSize < 2 ^ 64) (hoffset : offset < 2 ^ 63) (hsize : size < 2 ^ 64)

include hcache hoffset hsize

theorem getRange_stop (hle : offset ≤ cacheSize) : (cacheGetRange cacheSize offset size).2 =
    min (pageAlignUp (min (offset + size) cacheSize)) (pageAlignUp cacheSize) := by
  unfold cacheGetRange
  dsimp only
  have hsum : wrap (offset + if offset ≤ cacheSize ∧ cacheSize - offset < size then
      cacheSize - offset else size) = min (offset + size) cacheSize := by
    unfold wrap
    split <;> omega
  rw [hsum]

theorem rounded_of_visited (hstart : (cacheGetRange cacheSize offset size).1 ≤ i)
    (hstop : i * pageSize < (cacheGetRange cacheSize offset size).2) :
    Rounded cacheSize offset size i := by
  refine ⟨hstart.trans (Nat.le_mul_of_pos_right i (by decide)), ?_⟩
  refine hstop.trans_le ?_
  by_cases hle : offset ≤ cacheSize
  · rw [getRange_stop hcache hoffset hsize hle]
    exact (Nat.min_le_left _ _).trans (pageAlignUp_le _)
  rw [Nat.min_eq_right (by omega)]
  exact (Nat.min_le_right _ _).trans (pageAlignUp_le _)

theorem lt_stop_iff_of_meets (h : Meets cacheSize offset size i) :
    i * pageSize < (cacheGetRange cacheSize offset size).2 ↔ cacheSize + pageSize ≤ 2 ^ 64 := by
  obtain ⟨x, hx, hlt, rfl⟩ := h
  have hmin : min (offset + size) cacheSize ≤ cacheSize := Nat.min_le_right _ _
  rw [getRange_stop hcache hoffset hsize (by omega), Nat.lt_min, pageAlignUp_eq hcache,
    pageAlignUp_eq (hmin.trans_lt hcache)]
  unfold pageSize
  constructor
  · grind
  intro hfit
  rw [if_pos hfit, if_pos (by omega)]
  omega

end Range

/-! ## The whole call -/

/-- What `cache_flush` is for: each dirty page that meets the request was handed to the write
operation once and is clean, and no page outside of the request rounded to pages was touched. -/
def Flushed (s s' : CacheState) (cache offset size : Nat) : Prop :=
  ∃ new, s'.passed = s.passed ++ new ∧
    (∀ i p, (s.cache cache).pages.lookup i = some p → (s.page p).dirty = true →
      Meets (s.cache cache).size offset size i →
      new.count p = 1 ∧ (s'.page p).dirty = false) ∧
    ∀ p, (∀ i, (s.cache cache).pages.lookup i = some p →
      ¬ Rounded (s.cache cache).size offset size i) → p ∉ new ∧ s'.page p = s.page p

/-- No dirty page that meets the request has an index below the byte offset at which the request
starts, and the size of the cache can be rounded up to pages. -/
def FlushReaches (s : CacheState) (cache offset size : Nat) : Prop :=
  ∀ i p, (s.cache cache).pages.lookup i = some p → (s.page p).dirty = true →
    Meets (s.cache cache).size offset size i →
    pageAlignDown offset ≤ i ∧ (s.cache cache).size + pageSize ≤ 2 ^ 64

end CacheState

/-- **`cache_flush`** that returns without an error, with every write succeeding, has written its
range back exactly if no dirty page of the range comes before the index at which the search starts. -/
theorem cache_flush_iff (s s' : CacheState) (cache offset size : Nat) (hown : s.Owns cache)
    (hwrite : (s.cache cache).hasWrite = true) (hok : s.WritesSucceed)
    (hcache : (s.cache cache).size < 2 ^ 64) (hoffset : offset < 2 ^ 63) (hsize : size < 2 ^ 64)
    (hrun : s.cacheFlush cache offset size = .ok (.ok (), s')) :
    s.Flushed s' cache offset size ↔ s.FlushReaches cache offset size := by
  obtain ⟨⟨r, s₁⟩, hraw, hrest⟩ := bind_eq_ok.1 hrun
  have hfield {β : Type} {g : PageCache → β}
      (hg : ∀ c : PageCache, g { c with readers := c.readers + 1 } = g c) :
      g ((s.rwsemAcquireRead cache).cache cache) = g (s.cache cache) := modifyCache_field hg cache
  have hpages := hfield (g := (·.pages)) fun _ => rfl
  have hsz := hfield (g := (·.size)) fun _ => rfl
  have hown₀ : (s.rwsemAcquireRead cache).Owns cache := by
    refine ⟨fun i p hi => hown.owner i p ?_, fun i p hi => hown.offset i p ?_,
      fun i p hi => hown.bound i p ?_⟩
    all_goals rwa [hpages] at hi
  obtain ⟨rfl, k, hflush, htarget⟩ := rawFlush_spec hown₀ ⟨hok.writes, hok.ends⟩
    ((hfield fun _ => rfl).trans hwrite) hraw
  obtain ⟨⟨s₂, x⟩, hwait, hend⟩ := bind_eq_ok.1 hrest
  rw [hflush.size] at hwait
  rw [hsz] at hflush htarget hwait
  generalize hrange : cacheGetRange (s.cache cache).size offset size = range at hflush htarget hwait
  rcases flushWait_spec hflush.succeed hwait with ⟨e, rfl⟩ | ⟨rfl, hquiet⟩
  · cases hend
  cases hend
  obtain ⟨new, hnew, hdone, hkeep⟩ := hflush.passed
  rw [append_nil] at hdone hkeep
  have hstop (i p : Nat) (hi : (s.cache cache).pages.lookup i = some p) :
      wrap (i * pageSize) = i * pageSize := by
    have := hown.bound i p hi
    exact wrap_of_lt (by unfold pageSize; omega)
  -- a dirty page that meets the request is visited where the search reaches it
  have hvisit (i p : Nat) (hi : (s.cache cache).pages.lookup i = some p)
      (hd : (s.page p).dirty = true) (hm : Meets (s.cache cache).size offset size i) :
      (s.rwsemAcquireRead cache).Target cache range.1 range.2 p ↔
        pageAlignDown offset ≤ i ∧ (s.cache cache).size + pageSize ≤ 2 ^ 64 := by
    rw [← lt_stop_iff_of_meets hcache hoffset hsize hm, hrange]
    have hstart : range.1 = pageAlignDown offset := by rw [← hrange]; rfl
    constructor
    · rintro ⟨j, hj, hsj, hlt, -⟩
      rw [hpages] at hj
      obtain rfl : j = i := (hown.offset j p hj).symm.trans (hown.offset i p hi)
      rw [hstop j p hj] at hlt
      exact ⟨hstart ▸ hsj, hlt⟩
    rintro ⟨hsi, hlt⟩
    exact ⟨i, hpages ▸ hi, hstart ▸ hsi, by rw [hstop i p hi]; exact hlt, hd⟩
  have hround (i p : Nat) (hi : (s.cache cache).pages.lookup i = some p) (hsi : range.1 ≤ i)
      (hlt : wrap (i * pageSize) < range.2) : Rounded (s.cache cache).size offset size i := by
    rw [hstop i p hi] at hlt
    subst hrange
    exact rounded_of_visited hcache hoffset hsize hsi hlt
  have hfinal : s₂.passed = s.passed ++ new := by
    rw [hquiet.passed, append_nil]
    exact hnew
  constructor
  · rintro ⟨new', hnew', hall, -⟩ i p hi hd hm
    by_contra hnot
    have hsame := (hkeep p (mt (htarget p).1 (mt (hvisit i p hi hd hm).1 hnot))).2
    have hclean : (s₂.page p).dirty = false := (hall i p hi hd hm).2
    rw [(hquiet.kept p).dirty, hsame] at hclean
    exact absurd (hclean.symm.trans hd) Bool.false_ne_true
  intro hreach
  refine ⟨new, hfinal, fun i p hi hd hm => ?_, fun p hout => ?_⟩
  · obtain ⟨hcount, hclean⟩ :=
      hdone p ((htarget p).2 ((hvisit i p hi hd hm).2 (hreach i p hi hd hm)))
    exact ⟨hcount, (hquiet.kept p).dirty.trans hclean⟩
  have hunvisited : ¬ (s.rwsemAcquireRead cache).Target cache range.1 range.2 p := by
    rintro ⟨i, hi, hsi, hlt, -⟩
    rw [hpages] at hi
    exact hout i hi (hround i p hi hsi hlt)
  have hunwaited : ¬ s₁.InRange cache range.1 range.2 p := by
    rintro ⟨i, hi, hsi, hlt⟩
    rw [hflush.pages, hpages] at hi
    exact hout i hi (hround i p hi hsi hlt)
  obtain ⟨hmem, hsame⟩ := hkeep p (mt (htarget p).1 hunvisited)
  exact ⟨hmem, (hquiet.page p hunwaited).trans hsame⟩

/-- The pages `10` and `11` at the first two indices. -/
def twoPages : Sparse Nat := AList.insert 1 11 (AList.insert 0 10 ∅)

theorem twoPages_lookup {i p : Nat} (h : twoPages.lookup i = some p) :
    i = 0 ∧ p = 10 ∨ i = 1 ∧ p = 11 := by
  unfold twoPages at h
  by_cases h1 : i = 1
  · subst h1
    exact .inr ⟨rfl, (some.inj h).symm⟩
  rw [AList.lookup_insert_ne h1] at h
  by_cases h0 : i = 0
  · subst h0
    exact .inl ⟨rfl, (some.inj h).symm⟩
  rw [AList.lookup_insert_ne h0] at h
  cases h

/-- A cache of two pages, both dirty. -/
def twoDirtyPages : CacheState where
  page p := { refCount := 1, free := false, dirty := true, cache := some 0, offset := p - 10 }
  bytes _ _ := 0
  cache _ := { size := 8192, pages := twoPages, dirtyCount := 2 }
  dirtyCaches := [0]

theorem twoDirtyPages_owns : twoDirtyPages.Owns 0 where
  owner _ _ _ := rfl
  offset _ _ h := by obtain ⟨rfl, rfl⟩ | ⟨rfl, rfl⟩ := twoPages_lookup h <;> rfl
  bound _ _ h := by obtain ⟨rfl, rfl⟩ | ⟨rfl, rfl⟩ := twoPages_lookup h <;> decide

theorem twoDirtyPages_succeed : twoDirtyPages.WritesSucceed :=
  ⟨fun _ h => absurd h not_mem_nil, fun _ _ h => absurd h not_mem_nil⟩

/-- The whole cache is flushed. -/
theorem cache_flush_whole_range :
    ∃ s', twoDirtyPages.cacheFlush 0 0 8192 = .ok (.ok (), s') ∧ twoDirtyPages.Flushed s' 0 0 8192 :=
  ⟨_, rfl, (cache_flush_iff twoDirtyPages _ 0 0 8192 twoDirtyPages_owns rfl twoDirtyPages_succeed
    (by decide) (by decide) (by decide) rfl).2
    fun i _ _ _ _ => ⟨Nat.zero_le i, by decide⟩⟩

/-- **A flush that does nothing.** The second page alone is flushed: the search starts at the index
`4096`, and the page stays dirty. -/
theorem cache_flush_second_page :
    ¬ ∀ (s s' : CacheState) (cache offset size : Nat), s.Owns cache →
      (s.cache cache).hasWrite = true → s.WritesSucceed → (s.cache cache).size < 2 ^ 64 →
      offset < 2 ^ 63 → size < 2 ^ 64 → s.cacheFlush cache offset size = .ok (.ok (), s') →
      s.Flushed s' cache offset size := by
  intro h
  obtain ⟨_, -, hall, -⟩ := h twoDirtyPages _ 0 4096 4096 twoDirtyPages_owns rfl
    twoDirtyPages_succeed (by decide) (by decide) (by decide) rfl
  exact absurd (hall 1 11 rfl rfl ⟨4096, by decide, by decide, rfl⟩).2 (by decide)

end Stanix

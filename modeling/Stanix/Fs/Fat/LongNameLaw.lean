import Stanix.Fs.Fat.LongName
import Mathlib.Data.List.TakeWhile

/-!
# Writing and reading a long name

A name that was written by `fat_create_entry` should be read back by `fat_parse_next_lfn`, and the
latter should stay inside its buffers whatever is on the disk. `long_names_iff` says when they do.

The names that come back are those without a code point above 0xffff, whose surrogates are written in
the wrong order, and of at most 246 characters: a longer one has twenty entries, and the units of the
twentieth do not fit the array of the reader. On a foreign disk twenty entries leave that array too, and
nineteen can hold more than the 512 bytes of the name.
-/

namespace Stanix

open List FatCursor

/-! ## Reading -/

/-- The sequence of a long name: `n` long-name entries that count down, and an entry behind them. -/
def LfnTagged : Nat → List ByteStore → Prop
  | 0, entries => entries ≠ []
  | _ + 1, [] => False
  | n + 1, entry :: rest => lfnOrd entry = n + 1 ∧ IsLongEntry entry ∧ LfnTagged n rest

/-- The units of such a sequence. -/
def lfnText : Nat → List ByteStore → List (BitVec 16)
  | n + 1, entry :: rest => lfnText n rest ++ lfnUnits entry
  | _, _ => []

/-- **The loop of the reader** gets the units of a sequence that is tagged, and reports an error if it
is not. -/
theorem parseLfnLoop_spec {n : Nat} (hn : n * 13 ≤ 256) (dir : FatCursor) (entry : ByteStore)
    (acc : List (BitVec 16)) (sfnOffset : Nat) :
    (LfnTagged n (entry :: dir.after) ∧ ∃ last sfnOffset' dir',
      parseLfnLoop n dir entry acc sfnOffset =
        .ok (.ok (last, lfnText n (entry :: dir.after) ++ acc, sfnOffset'), dir') ∧
      (entry :: dir.after)[n]? = some last) ∨
    (¬LfnTagged n (entry :: dir.after) ∧ ∃ e dir',
      parseLfnLoop n dir entry acc sfnOffset = .ok (.error e, dir')) := by
  induction n generalizing dir entry acc sfnOffset with
  | zero => exact .inl ⟨cons_ne_nil _ _, entry, sfnOffset, dir, rfl, rfl⟩
  | succ n ih => ?_
  unfold parseLfnLoop
  by_cases hord : lfnOrd entry = n + 1
  · rw [if_neg (not_not.2 hord)]
    by_cases hlong : IsLongEntry entry
    · rw [if_neg (not_not.2 hlong), if_neg (by omega)]
      obtain ⟨before, after⟩ := dir
      cases after with
      | nil =>
        refine .inr ⟨fun htagged => ?_, .noent, _, rfl⟩
        cases n with
        | zero => exact htagged.2.2 rfl
        | succ n => exact htagged.2.2
      | cons next rest => ?_
      rcases ih (by omega) ⟨before ++ [next], rest⟩ next (lfnUnits entry ++ acc) before.length with
        ⟨htagged, last, sfnOffset', dir', hloop, hlast⟩ | ⟨hnot, e, dir', hloop⟩
      · refine .inl ⟨⟨hord, hlong, htagged⟩, last, sfnOffset', dir', ?_, hlast⟩
        rw [lfnText, append_assoc]
        exact hloop
      exact .inr ⟨fun htagged => hnot htagged.2.2, e, dir', hloop⟩
    rw [if_pos hlong]
    exact .inr ⟨fun htagged => hlong htagged.2.1, .io, dir, rfl⟩
  rw [if_pos hord]
  exact .inr ⟨fun htagged => hord htagged.1, .io, dir, rfl⟩

/-- The reader reported an error or stayed inside its arrays. -/
def LfnBounded (r : Exec (Except Errno LfnParsed × FatCursor)) : Prop :=
  ∃ x, r = .ok x ∧ ∀ parsed, x.1 = .ok parsed → (cString parsed.name).length < 512

/-- The condition for that: twenty entries are not accepted, and the text of fewer entries fits the
buffer of the name. -/
structure LfnFits (entry : ByteStore) (rest : List ByteStore) : Prop where
  entries : entry 0 &&& 0x40 ≠ 0 → lfnOrd entry = 20 → ¬IsLongEntry entry
  text : entry 0 &&& 0x40 ≠ 0 → lfnOrd entry < 20 → LfnTagged (lfnOrd entry) (entry :: rest) →
    utf8Room (lfnText (lfnOrd entry) (entry :: rest)) ≤ 512

variable {dir : FatCursor} {points : List Nat} {ct : Ctype} {name : List (BitVec 16)}
  {entry : ByteStore}

theorem fatParseNextLfn_twenty (hmark : entry 0 &&& 0x40 ≠ 0) (hord : lfnOrd entry = 20)
    (sfnOffset : Nat) :
    fatParseNextLfn dir entry sfnOffset =
      if IsLongEntry entry then .error .bounds else .ok (.error .io, dir) := by
  unfold fatParseNextLfn
  rw [if_neg hmark, if_neg (by omega), hord]
  unfold parseLfnLoop
  rw [if_neg (not_not.2 hord)]
  by_cases hlong : IsLongEntry entry
  · rw [if_neg (not_not.2 hlong), if_pos hlong]
    rfl
  rw [if_pos hlong, if_neg hlong]
  rfl

/-- The end of the reader: the name is what the conversion of the units gives, if it fits the
buffer. -/
theorem parseLfnFinish_spec (entry : ByteStore) (utf16 : List (BitVec 16)) (sfnOffset : Nat) :
    (512 < utf8Room utf16 ∧ parseLfnFinish entry utf16 sfnOffset = .error .bounds) ∨
    (utf8Room utf16 ≤ 512 ∧
      ((∃ e, (utf16ToUtf8 utf16).1 = .error e ∧
          parseLfnFinish entry utf16 sfnOffset = .ok (.error e)) ∨
        (∃ len, (utf16ToUtf8 utf16).1 = .ok len ∧ (utf16ToUtf8 utf16).2.length < 512 ∧
          parseLfnFinish entry utf16 sfnOffset =
            if IsLongEntry entry then .ok (.error .io)
            else .ok (.ok ⟨(utf16ToUtf8 utf16).2 ++ [0], entry, sfnOffset⟩)))) := by
  have hused : bytesUsed (utf16ToUtf8 utf16) = utf8Room utf16 := bytesUsed_transcode utf16 (le_rfl)
  unfold bytesUsed at hused
  unfold parseLfnFinish
  dsimp only
  cases hret : (utf16ToUtf8 utf16).1 with
  | error e =>
    rw [hret] at hused
    have hused : (utf16ToUtf8 utf16).2.length = utf8Room utf16 := hused
    rw [hused]
    by_cases hlong : 512 < utf8Room utf16
    · exact .inl ⟨hlong, if_pos hlong⟩
    exact .inr ⟨by omega, .inl ⟨e, rfl, if_neg hlong⟩⟩
  | ok len =>
    have hlen : len = (utf16ToUtf8 utf16).2.length := transcode_length _ hret
    rw [hret] at hused
    have hused : (utf16ToUtf8 utf16).2.length + 1 = utf8Room utf16 := hused
    grind

/-- **The reader** on a tagged sequence of fewer than twenty entries. -/
theorem fatParseNextLfn_tagged (hmark : entry 0 &&& 0x40 ≠ 0) (hord : lfnOrd entry < 20)
    (htagged : LfnTagged (lfnOrd entry) (entry :: dir.after)) (sfnOffset : Nat) :
    ∃ last sfnOffset' dir', (entry :: dir.after)[lfnOrd entry]? = some last ∧
      fatParseNextLfn dir entry sfnOffset =
        parseLfnFinish last (lfnText (lfnOrd entry) (entry :: dir.after)) sfnOffset' >>=
          fun r => .ok (r, dir') := by
  unfold fatParseNextLfn
  rw [if_neg hmark, if_neg (by omega)]
  rcases parseLfnLoop_spec (n := lfnOrd entry) (by omega) dir entry [] sfnOffset with
    ⟨-, last, sfnOffset', dir', hloop, hlast⟩ | ⟨hnot, -⟩
  · rw [hloop, append_nil]
    exact ⟨last, sfnOffset', dir', hlast, rfl⟩
  exact absurd htagged hnot

theorem cString_append_zero (buf rest : List (BitVec 8)) :
    cString (buf ++ 0#8 :: rest) = cString buf := by
  induction buf with
  | nil => rfl
  | cons b buf ih =>
    unfold cString at ih ⊢
    rw [cons_append, takeWhile_cons, takeWhile_cons, ih]

theorem length_cString_le (buf : List (BitVec 8)) : (cString buf).length ≤ buf.length :=
  (takeWhile_sublist _).length_le

theorem cString_eq_self {buf : List (BitVec 8)} (h : 0#8 ∉ buf) : cString buf = buf :=
  takeWhile_eq_self_iff.2 fun _ hb => by simpa using ne_of_mem_of_not_mem hb h

/-- **The reader stays inside its arrays** exactly on the sequences that fit. -/
theorem lfnBounded_iff (dir : FatCursor) (entry : ByteStore) (sfnOffset : Nat) :
    LfnBounded (fatParseNextLfn dir entry sfnOffset) ↔ LfnFits entry dir.after := by
  have herror {r : Exec (Except Errno LfnParsed × FatCursor)} {e : Errno} {dir' : FatCursor}
      (h : r = .ok (.error e, dir')) : LfnBounded r := ⟨_, h, nofun⟩
  have hfault {r : Exec (Except Errno LfnParsed × FatCursor)} (h : r = .error .bounds) :
      ¬LfnBounded r := by
    rintro ⟨x, hx, -⟩
    rw [h] at hx
    cases hx
  by_cases hmark : entry 0 &&& 0x40 = 0
  · exact iff_of_true (herror (if_pos hmark)) ⟨absurd hmark, absurd hmark⟩
  by_cases hmany : lfnOrd entry > 20
  · have hparse : fatParseNextLfn dir entry sfnOffset = .ok (.error .io, dir) := by
      unfold fatParseNextLfn
      rw [if_neg hmark, if_pos hmany]
    exact iff_of_true (herror hparse) ⟨fun _ h => by omega, fun _ h => by omega⟩
  by_cases htwenty : lfnOrd entry = 20
  · have hparse := @fatParseNextLfn_twenty dir entry hmark htwenty sfnOffset
    by_cases hlong : IsLongEntry entry
    · rw [if_pos hlong] at hparse
      exact iff_of_false (hfault hparse) fun hfits => hfits.entries hmark htwenty hlong
    rw [if_neg hlong] at hparse
    exact iff_of_true (herror hparse) ⟨fun _ _ => hlong, fun _ h => by omega⟩
  by_cases htagged : LfnTagged (lfnOrd entry) (entry :: dir.after)
  · obtain ⟨last, sfnOffset', dir', -, hparse⟩ :=
      fatParseNextLfn_tagged hmark (by omega) htagged sfnOffset
    have hfits : LfnFits entry dir.after ↔
        utf8Room (lfnText (lfnOrd entry) (entry :: dir.after)) ≤ 512 :=
      ⟨fun hfits => hfits.text hmark (by omega) htagged,
        fun hroom => ⟨fun _ h => absurd h htwenty, fun _ _ _ => hroom⟩⟩
    rw [hfits]
    rcases parseLfnFinish_spec last (lfnText (lfnOrd entry) (entry :: dir.after)) sfnOffset' with
      ⟨hroom, hfinish⟩ | ⟨hroom, ⟨e, -, hfinish⟩ | ⟨len, -, hlen, hfinish⟩⟩
    · rw [hfinish] at hparse
      exact iff_of_false (hfault hparse) (by omega)
    · rw [hfinish] at hparse
      exact iff_of_true (herror hparse) hroom
    by_cases hlong : IsLongEntry last
    · rw [hfinish, if_pos hlong] at hparse
      exact iff_of_true (herror hparse) hroom
    rw [hfinish, if_neg hlong] at hparse
    refine iff_of_true ⟨_, hparse, fun parsed h => ?_⟩ hroom
    cases h
    exact Nat.lt_of_le_of_lt ((congrArg List.length (cString_append_zero _ [])).trans_le
      (length_cString_le _)) hlen
  refine iff_of_true ?_ ⟨fun _ h => absurd h htwenty, fun _ _ h => absurd h htagged⟩
  rcases parseLfnLoop_spec (n := lfnOrd entry) (by omega) dir entry [] sfnOffset with
    ⟨h, -⟩ | ⟨-, e, dir', hloop⟩
  · exact absurd h htagged
  refine @herror _ e dir' ?_
  unfold fatParseNextLfn
  rw [if_neg hmark, if_neg hmany, hloop]
  rfl

/-! ## Writing -/

theorem extract_append (x : BitVec 16) : x.extractLsb' 8 8 ++ x.extractLsb' 0 8 = x := by
  apply BitVec.eq_of_toNat_eq
  rw [toNat_append_byte]
  simp only [BitVec.extractLsb'_toNat]
  omega

theorem lfnUnits_fatLongEntry (ord checksum : BitVec 8) (f : Nat → BitVec 16) :
    lfnUnits (fatLongEntry ord checksum ((List.range 5).map f)
      ((List.range 6).map fun i => f (5 + i)) ((List.range 2).map fun i => f (11 + i))) =
      (List.range 13).map f := by
  simp [lfnUnits, ByteStore.le16, fatLongEntry, le16Bytes, range_succ, extract_append]

section entries

variable (checksum : BitVec 8) (name : List (BitVec 16)) (len count : Nat)

theorem lfnUnits_lfnEntry (ord : Nat) :
    lfnUnits (lfnEntry checksum name len count ord) =
      (List.range 13).map fun i => lfnUnit name len ((ord - 1) * 13 + i) := by
  exact lfnUnits_fatLongEntry _ _ fun i => lfnUnit name len ((ord - 1) * 13 + i)

theorem isLongEntry_lfnEntry (ord : Nat) : IsLongEntry (lfnEntry checksum name len count ord) := by
  have hattr : lfnEntry checksum name len count ord 11 = 0x0f := by
    simp [lfnEntry, fatCopyLfnChunck, fatLongEntry, le16Bytes, range_succ]
  unfold IsLongEntry
  rw [hattr]
  rfl

theorem lfnOrd_lfnEntry {ord : Nat} (hord : ord ≤ 20) :
    lfnOrd (lfnEntry checksum name len count ord) = ord := by
  have hmask : ∀ ord ≤ 20, ((BitVec.ofNat 8 ord ||| 0#8) &&& ~~~0x40#8).toNat = ord ∧
      ((BitVec.ofNat 8 ord ||| 0x40#8) &&& ~~~0x40#8).toNat = ord := by decide
  have htag : lfnEntry checksum name len count ord 0 =
    BitVec.ofNat 8 ord ||| if ord = count then 0x40 else 0 := rfl
  unfold lfnOrd
  rw [htag]
  split
  · exact (hmask ord hord).2
  exact (hmask ord hord).1

theorem mark_lfnEntry : lfnEntry checksum name len count count 0 &&& 0x40 ≠ 0 := by
  have htag : lfnEntry checksum name len count count 0 =
    BitVec.ofNat 8 count ||| if count = count then 0x40 else 0 := rfl
  rw [htag]
  intro hzero
  have hbit := congrArg (·.getLsbD 6) hzero
  simp at hbit

/-- The entries of a long name, from a part down to the first one. -/
def lfnEntries : Nat → List ByteStore
  | 0 => []
  | ord + 1 => lfnEntry checksum name len count (ord + 1) :: lfnEntries ord

theorem length_lfnEntries (n : Nat) : (lfnEntries checksum name len count n).length = n := by
  induction n with
  | zero => rfl
  | succ n ih => rw [lfnEntries, length_cons, ih]

/-- **The loop of the writer** puts these entries at its place. -/
theorem writeLfnLoop_eq {n : Nat} {dir : FatCursor} (hroom : n ≤ dir.after.length) :
    writeLfnLoop checksum name len count n dir =
      (.ok (), ⟨dir.before ++ lfnEntries checksum name len count n, dir.after.drop n⟩) := by
  induction n generalizing dir with
  | zero => simp [writeLfnLoop, lfnEntries]
  | succ n ih => ?_
  obtain ⟨before, after⟩ := dir
  cases after with
  | nil => exact absurd hroom (Nat.not_succ_le_zero n)
  | cons old rest =>
    unfold writeLfnLoop fatWriteNextEntry
    dsimp only
    rw [ih (Nat.le_of_succ_le_succ hroom), append_assoc]
    rfl

theorem lfnTagged_lfnEntries {n : Nat} (hn : n ≤ 20) {rest : List ByteStore} (hrest : rest ≠ []) :
    LfnTagged n (lfnEntries checksum name len count n ++ rest) := by
  induction n with
  | zero => exact hrest
  | succ n ih =>
    exact ⟨lfnOrd_lfnEntry _ _ _ _ hn, isLongEntry_lfnEntry _ _ _ _ _, ih (Nat.le_of_succ_le hn)⟩

theorem lfnText_lfnEntries (n : Nat) (rest : List ByteStore) :
    lfnText n (lfnEntries checksum name len count n ++ rest) =
      (List.range (n * 13)).map (lfnUnit name len) := by
  induction n with
  | zero => cases rest <;> rfl
  | succ n ih =>
    rw [lfnEntries, cons_append, lfnText, ih, lfnUnits_lfnEntry, Nat.succ_mul, range_add, map_append]
    rfl

end entries

theorem map_lfnUnit_self (name : List (BitVec 16)) :
    (List.range name.length).map (lfnUnit name name.length) = name := by
  refine ext_getElem (by simp) fun i h1 h2 => ?_
  rw [getElem_map, getElem_range, lfnUnit, if_pos h2, getD_eq_getElem _ _ h2]

theorem map_lfnUnit {m : Nat} (hm : name.length ≤ m) :
    ∃ rest, (List.range m).map (lfnUnit name name.length) = name ++ rest := by
  obtain ⟨k, rfl⟩ := Nat.exists_eq_add_of_le hm
  rw [range_add, map_append, map_lfnUnit_self]
  exact ⟨_, rfl⟩

/-! ## Names -/

/-- The bytes that start a character. -/
def startsChar (b : BitVec 8) : Bool := b &&& 0xc0#8 ≠ 0x80#8

/-- The names that come back: no character has four bytes, and there are at most 246. -/
structure LfnNameFits (name : List (BitVec 8)) : Prop where
  bytes : ∀ b ∈ name, b.toNat < 0xf0
  chars : name.countP startsChar ≤ 246

theorem countP_startsChar_utf8Form {c : Nat} (h : IsScalar c) :
    (utf8Form c).countP startsChar = 1 := by
  obtain ⟨lead, tail, hform, hlead, -, -, htail⟩ := utf8Form_eq_cons h
  have hstarts (b : BitVec 8) : startsChar b = true ↔ ¬(0x80 ≤ b.toNat ∧ b.toNat < 0xc0) := by
    rw [← tail_iff]
    exact decide_eq_true_iff
  rw [hform, countP_cons_of_pos ((hstarts _).2 (by omega)), countP_eq_zero.2 fun b hb hb' =>
    (hstarts b).1 hb' (htail b hb)]

theorem utf8Form_lt_iff {c : Nat} (h : IsScalar c) :
    (∀ b ∈ utf8Form c, b.toNat < 0xf0) ↔ c < 0x10000 := by
  obtain ⟨lead, tail, hform, -, -, hlead, htail⟩ := utf8Form_eq_cons h
  rw [hform, forall_mem_cons, hlead]
  exact and_iff_left fun b hb => (htail b hb).2.trans (by decide)

theorem lfnNameFits_iff (hpoints : ∀ c ∈ points, IsScalar c) :
    LfnNameFits (points.flatMap utf8Form) ↔ (∀ c ∈ points, c < 0x10000) ∧ points.length ≤ 246 := by
  have hchars : (points.flatMap utf8Form).countP startsChar = points.length := by
    induction points with
    | nil => rfl
    | cons c points ih =>
      obtain ⟨hc, hrest⟩ := forall_mem_cons.1 hpoints
      rw [flatMap_cons, countP_append, countP_startsChar_utf8Form hc, ih hrest,
        length_cons, add_comm]
  have hbytes : (∀ b ∈ points.flatMap utf8Form, b.toNat < 0xf0) ↔ ∀ c ∈ points, c < 0x10000 := by
    simp only [mem_flatMap, forall_exists_index, and_imp]
    exact ⟨fun h c hc => (utf8Form_lt_iff (hpoints c hc)).1 fun b hb => h b c hc hb,
      fun h b c hc hb => (utf8Form_lt_iff (hpoints c hc)).2 (h c hc) b hb⟩
  constructor
  · rintro ⟨hall, hcount⟩
    exact ⟨hbytes.1 hall, hchars ▸ hcount⟩
  rintro ⟨hall, hcount⟩
  exact ⟨hbytes.2 hall, hchars.symm ▸ hcount⟩

theorem length_flatMap_utf16Out_le (points : List Nat) :
    (points.flatMap utf16Out).length ≤ (points.flatMap utf8Form).length := by
  induction points with
  | nil => exact le_rfl
  | cons c points ih => ?_
  have hone : (utf16Out c).length ≤ (utf8Form c).length := by
    have hpos := length_pos_iff.2 (utf8Form_ne_nil c)
    unfold utf16Out
    split
    · exact hpos
    unfold utf8Form
    rw [if_neg (by omega), if_neg (by omega), if_neg (by omega)]
    exact Nat.le_add_left 2 2
  rw [flatMap_cons, flatMap_cons, length_append, length_append]
  omega

theorem length_le_flatMap_utf16Out (points : List Nat) :
    points.length ≤ (points.flatMap utf16Out).length := by
  induction points with
  | nil => exact le_rfl
  | cons c points ih => ?_
  have hone : 0 < (utf16Out c).length := by
    unfold utf16Out
    split <;> exact Nat.succ_pos _
  rw [flatMap_cons, length_append, length_cons]
  omega

theorem length_flatMap_utf16Out (h : ∀ c ∈ points, c < 0x10000) :
    (points.flatMap utf16Out).length = points.length := by
  induction points with
  | nil => rfl
  | cons c points ih =>
    obtain ⟨hc, hrest⟩ := forall_mem_cons.1 h
    rw [flatMap_cons, length_append, ih hrest, utf16Out, if_pos hc]
    exact add_comm ..

/-! ## The round trip -/

/-- The long name at a place of a directory is read as `name`. -/
def LfnReads (slots : List ByteStore) (start : Nat) (name : List (BitVec 8)) : Prop :=
  ∃ first dir dir' parsed, (FatCursor.seek slots start).fatReadNextEntry = (.ok first, dir) ∧
    fatParseNextLfn dir first start = .ok (.ok parsed, dir') ∧ cString parsed.name = name

theorem FatEntry.bytes_attributes {entry : FatEntry} (hbase : entry.base.length = 8)
    (hext : entry.ext.length = 3) : entry.bytes 11 = entry.attributes := by
  unfold FatEntry.bytes
  simp only [append_assoc]
  rw [getD_append_right _ _ _ _ (by omega), getD_append_right _ _ _ _ (by omega), hbase, hext]
  rfl

theorem length_padded {n : Nat} {l : List (BitVec 8)} (h : l.length ≤ n) : (padded n l).length = n := by
  rw [padded, length_append, length_replicate]
  omega

theorem fatSfnGenerate_long {name : List (BitVec 8)} (h : fatIsLongName ct name = true)
    (eof : BitVec 32) (attributes : BitVec 8) :
    ∃ sfn, fatSfnGenerate ct eof name attributes = .ok sfn ∧
      ∀ date, { sfn with creationDate := date }.bytes 11 = attributes := by
  unfold fatSfnGenerate
  rw [if_pos h]
  refine ⟨_, rfl, fun date => FatEntry.bytes_attributes (length_padded ?_) (length_padded ?_)⟩
  · have hle : ((name.take 6).takeWhile (· ≠ 0x2e)).length ≤ 6 :=
      (takeWhile_sublist _).length_le.trans (length_take_le ..)
    rw [length_append, length_map]
    exact Nat.add_le_add_right hle 2
  rw [length_map]
  exact length_take_le ..

theorem writeLfnLoop_error (checksum : BitVec 8) (name : List (BitVec 16)) (len count : Nat)
    {n : Nat} (hroom : dir.after.length < n) :
    ∃ e dir', writeLfnLoop checksum name len count n dir = (.error e, dir') := by
  induction n generalizing dir with
  | zero => exact absurd hroom (Nat.not_lt_zero _)
  | succ n ih =>
    obtain ⟨before, after⟩ := dir
    cases after with
    | nil => exact ⟨_, _, rfl⟩
    | cons old rest => exact ih (Nat.lt_of_succ_lt_succ hroom)

/-- **Writing a name.** If it succeeds, the entries of the name and that of the file are in place. -/
theorem writeEntries_ok {slots slots' : List ByteStore} {start : Nat} {sfn : FatEntry}
    {date : BitVec 16} {len : Nat}
    (h : writeEntries slots start true sfn date name len = (.ok (), slots')) :
    ∃ rest, FatCursor.seek slots' start = ⟨slots.take start,
      lfnEntries (fatSfnChecksum sfn) name len (lfnEntriesCount len) (lfnEntriesCount len) ++
        { sfn with creationDate := date }.bytes :: rest⟩ := by
  unfold writeEntries fatWriteNextLfn at h
  dsimp only at h
  rw [if_pos rfl] at h
  rcases lt_or_ge (FatCursor.seek slots start).after.length (lfnEntriesCount len) with
    hfew | hroom
  · obtain ⟨e, dir', herror⟩ := writeLfnLoop_error (fatSfnChecksum sfn) name len
      (lfnEntriesCount len) hfew
    rw [herror] at h
    cases h
  rw [writeLfnLoop_eq _ _ _ _ hroom] at h
  unfold FatCursor.fatWriteNextEntry at h
  cases hdrop : (FatCursor.seek slots start).after.drop (lfnEntriesCount len) with
  | nil =>
    simp only [hdrop] at h
    cases h
  | cons old rest => ?_
  simp only [hdrop] at h
  obtain rfl := congrArg Prod.snd h
  refine ⟨rest, ?_⟩
  have hstart : (slots.take start).length = start := by
    have hpos : 0 < (slots.drop start).length := by
      have := congrArg List.length hdrop
      simp only [FatCursor.seek, length_drop, length_cons] at this ⊢
      omega
    rw [length_drop] at hpos
    rw [length_take]
    omega
  simp only [FatCursor.seek, FatCursor.slots, append_assoc, singleton_append,
    take_left' hstart, drop_left' hstart]

variable {eof : BitVec 32} {date : BitVec 16} {start : Nat} {slots slots' : List ByteStore}
  {name junk : List (BitVec 8)} {attributes : BitVec 8}

/-- What a successful creation with a long name leaves in the directory. -/
theorem fatCreateEntry_ok (hname : 0#8 ∉ name) (hlong : fatIsLongName ct name = true)
    (h : fatCreateEntry ct eof date (.ok start) slots (name ++ 0#8 :: junk) attributes =
      .ok (.ok (), slots')) :
    ∃ (points : List Nat) (units : List (BitVec 16)) (checksum : BitVec 8) (sfn : ByteStore)
      (rest : List ByteStore), (∀ c ∈ points, IsScalar c ∧ c ≠ 0) ∧
      name = points.flatMap utf8Form ∧ units = points.flatMap utf16Out ++ [0#16] ∧
      sfn 11 = attributes ∧ seek slots' start = ⟨slots.take start,
        lfnEntries checksum units units.length (lfnEntriesCount units.length)
          (lfnEntriesCount units.length) ++ sfn :: rest⟩ := by
  have hstring : cString (name ++ 0#8 :: junk) = name := by
    rw [cString_append_zero, cString_eq_self hname]
  obtain ⟨sfn, hsfn, hattributes⟩ := fatSfnGenerate_long hlong eof attributes
  unfold fatCreateEntry at h
  simp only [hstring, hlong, hsfn] at h
  cases hutf16 : (utf8ToUtf16 (name ++ 0#8 :: junk)).1 with
  | error e =>
    simp only [if_true, hutf16] at h
    cases h
  | ok len => ?_
  simp only [if_true, hutf16] at h
  obtain ⟨points, hpoints, hform, hunits, hlen⟩ := transcode_utf8 hname (by simp) hutf16
  obtain ⟨rest, hseek⟩ := writeEntries_ok (Except.ok.inj h)
  rw [transcode_length _ hutf16] at hseek
  exact ⟨points, _, _, _, rest, hpoints, hform, hunits, hattributes date, hseek⟩

/-- **Reading a name** that was written in `n` entries. -/
theorem lfnReads_entries {slots before after : List ByteStore} {first sfn : ByteStore}
    {start n : Nat} {padding : List (BitVec 16)}
    (hseek : seek slots start = ⟨before, first :: after⟩) (hn : n ≤ 20)
    (hord : lfnOrd first = n) (hmark : first 0 &&& 0x40 ≠ 0) (hlong : IsLongEntry first)
    (htagged : LfnTagged n (first :: after)) (hlast : (first :: after)[n]? = some sfn)
    (hshort : ¬IsLongEntry sfn) (hpoints : ∀ c ∈ points, IsScalar c ∧ c ≠ 0)
    (htext : lfnText n (first :: after) = points.flatMap utf16Out ++ 0#16 :: padding)
    (hlength : (points.flatMap utf8Form).length ≤ 255) :
    LfnReads slots start (points.flatMap utf8Form) ↔ (∀ c ∈ points, c < 0x10000) ∧ n < 20 := by
  have hreads : LfnReads slots start (points.flatMap utf8Form) ↔ ∃ parsed dir',
      fatParseNextLfn ⟨before ++ [first], after⟩ first start = .ok (.ok parsed, dir') ∧
        cString parsed.name = points.flatMap utf8Form := by
    unfold LfnReads
    rw [hseek]
    constructor
    · rintro ⟨first', dir, dir', parsed, hread, hparse, hname⟩
      cases hread
      exact ⟨parsed, dir', hparse, hname⟩
    rintro ⟨parsed, dir', hparse, hname⟩
    exact ⟨first, _, dir', parsed, rfl, hparse, hname⟩
  rw [hreads]
  subst hord
  rcases Nat.lt_or_eq_of_le hn with hfew | hmany
  · obtain ⟨last, sfnOffset, dir', hlast', hparse⟩ :=
      @fatParseNextLfn_tagged ⟨before ++ [first], after⟩ first hmark hfew htagged start
    obtain rfl : sfn = last := Option.some.inj (hlast.symm.trans hlast')
    rw [hparse, htext]
    have hused := bytesUsed_transcode (points.flatMap utf16Out ++ 0#16 :: padding) (le_rfl)
    have hfuel : points.length < (points.flatMap utf16Out ++ 0#16 :: padding).length := by
      have := length_le_flatMap_utf16Out points
      rw [length_append, length_cons]
      omega
    rcases transcode_utf16Out hpoints hfuel padding with ⟨hbmp, hutf8⟩ | ⟨hnot, e, hutf8⟩
    · rw [hutf8] at hused
      refine iff_of_true ?_ ⟨hbmp, hfew⟩
      rcases parseLfnFinish_spec sfn (points.flatMap utf16Out ++ 0#16 :: padding) sfnOffset with
        ⟨hroom, -⟩ | ⟨-, ⟨e, herror, -⟩ | ⟨len, -, -, hfinish⟩⟩
      · rw [← hused, bytesUsed, length_append] at hroom
        simp only [Except.toBool, if_true, length_singleton] at hroom
        omega
      · rw [utf16ToUtf8, hutf8] at herror
        cases herror
      rw [hfinish, if_neg hshort, utf16ToUtf8, hutf8]
      refine ⟨_, _, rfl, ?_⟩
      have hzero : 0#8 ∉ points.flatMap utf8Form := fun hmem => by
        obtain ⟨c, hc, hform⟩ := mem_flatMap.1 hmem
        exact zero_notMem_utf8Form (hpoints c hc).1 (hpoints c hc).2 hform
      exact (cString_append_zero _ []).trans
        ((cString_append_zero _ []).trans (cString_eq_self hzero))
    refine iff_of_false ?_ fun hfits => hnot hfits.1
    rintro ⟨parsed, dir'', hok, -⟩
    rcases parseLfnFinish_spec sfn (points.flatMap utf16Out ++ 0#16 :: padding) sfnOffset with
      ⟨-, hfinish⟩ | ⟨-, ⟨e', -, hfinish⟩ | ⟨len, hlen, -⟩⟩
    · rw [hfinish] at hok
      cases hok
    · rw [hfinish] at hok
      cases hok
    rw [utf16ToUtf8, hutf8] at hlen
    cases hlen
  refine iff_of_false ?_ fun hfits => absurd hfits.2 (by omega)
  rintro ⟨parsed, dir', hok, -⟩
  rw [fatParseNextLfn_twenty hmark hmany, if_pos hlong] at hok
  cases hok

/-- **Names come back** exactly if they have no code point above 0xffff and at most 246 characters. -/
theorem lfnReads_iff (hname : 0#8 ∉ name) (hlength : name.length ≤ 255)
    (hlong : fatIsLongName ct name = true) (hattributes : attributes &&& 0x0f ≠ 0x0f)
    (h : fatCreateEntry ct eof date (.ok start) slots (name ++ 0#8 :: junk) attributes =
      .ok (.ok (), slots')) : LfnReads slots' start name ↔ LfnNameFits name := by
  obtain ⟨points, units, checksum, sfn, rest, hpoints, rfl, hunits, hsfn, hseek⟩ :=
    fatCreateEntry_ok hname hlong h
  -- there is at least one entry, and there are at most twenty
  have hle := length_flatMap_utf16Out_le points
  have hlen : units.length = (points.flatMap utf16Out).length + 1 := by
    rw [hunits, length_append, length_singleton]
  have hcount : lfnEntriesCount units.length = (units.length + 12) / 13 := rfl
  obtain ⟨n, hn⟩ : ∃ n, lfnEntriesCount units.length = n + 1 := ⟨(units.length - 1) / 13, by omega⟩
  rw [hn] at hseek hcount
  obtain ⟨padding, hpadding⟩ := @map_lfnUnit units ((n + 1) * 13) (by omega)
  have htext := lfnText_lfnEntries checksum units units.length (n + 1) (n + 1) (sfn :: rest)
  have hstart : units ++ padding = points.flatMap utf16Out ++ 0#16 :: padding := by
    rw [hunits, append_assoc, singleton_append]
  rw [hpadding, hstart] at htext
  have hlast : (lfnEntries checksum units units.length (n + 1) (n + 1) ++ sfn :: rest)[n + 1]? =
      some sfn := by
    rw [List.getElem?_append_right (length_lfnEntries ..).le, length_lfnEntries, Nat.sub_self]
    rfl
  have hshort : ¬IsLongEntry sfn := by
    unfold IsLongEntry
    rw [hsfn]
    exact hattributes
  rw [lfnReads_entries hseek (by omega) (lfnOrd_lfnEntry checksum units units.length
    (n + 1) (by omega)) (mark_lfnEntry _ _ _ _) (isLongEntry_lfnEntry _ _ _ _ _)
    (lfnTagged_lfnEntries checksum units units.length (n + 1) (by omega) (cons_ne_nil sfn rest))
    hlast hshort hpoints htext hlength, lfnNameFits_iff fun c hc => (hpoints c hc).1]
  refine and_congr_right fun hbmp => ?_
  rw [length_flatMap_utf16Out hbmp] at hlen
  omega

/-- **When long names are safe.** A name that was accepted comes back exactly if it has no code point
above 0xffff and at most 246 characters, and the reader stays inside its arrays exactly on the sequences
of entries that fit. -/
theorem long_names_iff {ct : Ctype} {eof : BitVec 32} {date : BitVec 16} {start : Nat}
    {slots slots' : List ByteStore} {name junk : List (BitVec 8)} {attributes : BitVec 8}
    (hname : 0#8 ∉ name) (hlength : name.length ≤ 255) (hlong : fatIsLongName ct name = true)
    (hattributes : attributes &&& 0x0f ≠ 0x0f)
    (h : fatCreateEntry ct eof date (.ok start) slots (name ++ 0#8 :: junk) attributes =
      .ok (.ok (), slots')) :
    (LfnReads slots' start name ↔ LfnNameFits name) ∧
      ∀ dir entry sfnOffset,
        LfnBounded (fatParseNextLfn dir entry sfnOffset) ↔ LfnFits entry dir.after :=
  ⟨lfnReads_iff hname hlength hlong hattributes h, lfnBounded_iff⟩

/-- The functions on characters for ASCII. -/
def asciiCtype : Ctype where
  isalpha c := (0x41 ≤ c ∧ c ≤ 0x5a) ∨ (0x61 ≤ c ∧ c ≤ 0x7a)
  isupper c := 0x41 ≤ c ∧ c ≤ 0x5a
  islower c := 0x61 ≤ c ∧ c ≤ 0x7a
  toupper c := if 0x61 ≤ c ∧ c ≤ 0x7a then c - 0x20 else c

/-- The name `A b` comes back. -/
theorem long_names_iff_blank :
    let name := [0x41#8, 0x20#8, 0x62#8]
    ∃ slots', fatCreateEntry asciiCtype 0xfff8 0 (.ok 0) (List.replicate 2 fun _ => 0#8)
        (name ++ 0#8 :: []) 0 = .ok (.ok (), slots') ∧
      LfnReads slots' 0 name ∧ LfnBounded (fatParseNextLfn ⟨[], []⟩ (fun _ => 0#8) 0) := by
  intro name
  refine ⟨_, rfl, ?_⟩
  have h := @long_names_iff asciiCtype 0xfff8 0 0 (List.replicate 2 fun _ => 0#8) _ name [] 0
    (by decide) (by decide) (by decide) (by decide) rfl
  exact ⟨h.1.2 ⟨by decide, by decide⟩, (h.2 _ _ _).2 ⟨absurd rfl, absurd rfl⟩⟩

/-- **A name with a character above 0xffff does not come back**, and twenty entries leave the array. -/
theorem long_names_lost :
    let name := [0xf0#8, 0x9f#8, 0x98#8, 0x80#8]
    (∃ slots', fatCreateEntry asciiCtype 0xfff8 0 (.ok 0) (List.replicate 2 fun _ => 0#8)
        (name ++ 0#8 :: []) 0 = .ok (.ok (), slots') ∧ ¬LfnReads slots' 0 name) ∧
      fatParseNextLfn ⟨[], []⟩ (fatLongEntry 0x54 0 [1, 1, 1, 1, 1] [1, 1, 1, 1, 1, 1] [1, 1]) 0 =
        .error .bounds := by
  intro name
  refine ⟨⟨_, rfl, fun hreads => ?_⟩, by rfl⟩
  have h := @lfnReads_iff asciiCtype 0xfff8 0 0 (List.replicate 2 fun _ => 0#8) _ name [] 0
    (by decide) (by decide) (by decide) (by decide) rfl
  exact absurd (h.1 hreads).bytes (by decide)

end Stanix

import Stanix.Base.Exec
import Mathlib.Data.Nat.Bitwise
import Mathlib.Data.Nat.Size

/-!
# Unicode

A model of `kernel/klib/unicode.c`: characters and strings in UTF-8 and in UTF-16. The functions of
the source get a buffer with its length and write code points or units through a pointer; here the
buffer is a list and what is written is part of the result. Code points are `int`s.

`utf8Form` is the form of a code point in UTF-8: `utf8_decode_char` accepts the forms of scalar values
only (`utf8DecodeChar_eq_ok`), and `utf8_encode_char` makes them (`utf8EncodeChar_eq`). The two UTF-16
units of a code point above 0xffff are written in the wrong order, so that reading them back fails
(`utf16DecodeChar_utf16Out`). Buffers of UTF-8 are decoded and encoded exactly.
-/

namespace Stanix

open List

/-! ## Characters -/

/-- Source: `utf8_decode_char` (`unicode.c:4`): the number of bytes and the code point. -/
def utf8DecodeChar : List (BitVec 8) → Except Errno (Nat × Nat)
  | [] => .ok (0, 0)
  | a :: rest =>
    if a.toNat ≤ 0x7f then .ok (1, a.toNat)
    else if a.toNat ≤ 0xc1 then .error .ilseq
    else if a.toNat ≤ 0xdf then
      match rest with
      | b :: _ =>
        if b &&& 0xc0#8 ≠ 0x80#8 then .error .ilseq
        else
          let decoded := (a.toNat &&& 0x1f) <<< 6 ||| (b.toNat &&& 0x3f)
          if decoded ≤ 0x7f then .error .ilseq else .ok (2, decoded)
      | _ => .error .ilseq
    else if a.toNat ≤ 0xef then
      match rest with
      | b :: c :: _ =>
        if b &&& 0xc0#8 ≠ 0x80#8 then .error .ilseq
        else if c &&& 0xc0#8 ≠ 0x80#8 then .error .ilseq
        else
          let decoded := (a.toNat &&& 0x0f) <<< 12 ||| (b.toNat &&& 0x3f) <<< 6 |||
            (c.toNat &&& 0x3f)
          if decoded ≤ 0x7ff then .error .ilseq
          else if decoded ≥ 0xd800 ∧ decoded ≤ 0xdfff then .error .ilseq
          else .ok (3, decoded)
      | _ => .error .ilseq
    else if a.toNat ≤ 0xf7 then
      match rest with
      | b :: c :: d :: _ =>
        if b &&& 0xc0#8 ≠ 0x80#8 then .error .ilseq
        else if c &&& 0xc0#8 ≠ 0x80#8 then .error .ilseq
        else if d &&& 0xc0#8 ≠ 0x80#8 then .error .ilseq
        else
          let decoded := (a.toNat &&& 0x07) <<< 18 ||| (b.toNat &&& 0x3f) <<< 12 |||
            (c.toNat &&& 0x3f) <<< 6 ||| (d.toNat &&& 0x3f)
          if decoded ≤ 0xffff then .error .ilseq
          else if decoded > 0x10ffff then .error .ilseq
          else .ok (4, decoded)
      | _ => .error .ilseq
    else .error .ilseq

/-- Source: `utf8_encode_char` (`unicode.c:67`): the bytes that are written. -/
def utf8EncodeChar : Int → Except Errno (List (BitVec 8))
  | .negSucc _ => .error .inval
  | .ofNat codepoint =>
    if codepoint ≤ 0x7f then .ok [.ofNat 8 codepoint]
    else if codepoint ≤ 0x7ff then
      .ok [.ofNat 8 (0xc0 ||| (codepoint >>> 6 &&& 0x1f)), .ofNat 8 (0x80 ||| (codepoint &&& 0x3f))]
    else if codepoint ≤ 0xffff then
      if codepoint ≥ 0xd800 ∧ codepoint ≤ 0xdfff then .error .inval
      else
        .ok [.ofNat 8 (0xe0 ||| (codepoint >>> 12 &&& 0x0f)),
          .ofNat 8 (0x80 ||| (codepoint >>> 6 &&& 0x3f)), .ofNat 8 (0x80 ||| (codepoint &&& 0x3f))]
    else if codepoint ≤ 0x10ffff then
      .ok [.ofNat 8 (0xf0 ||| (codepoint >>> 18 &&& 0x07)),
        .ofNat 8 (0x80 ||| (codepoint >>> 12 &&& 0x3f)),
        .ofNat 8 (0x80 ||| (codepoint >>> 6 &&& 0x3f)), .ofNat 8 (0x80 ||| (codepoint &&& 0x3f))]
    else .error .inval

/-- Source: `utf16_decode_char` (`unicode.c:116`): the number of units and the code point. -/
def utf16DecodeChar : List (BitVec 16) → Except Errno (Nat × Nat)
  | [] => .ok (0, 0)
  | a :: rest =>
    if a.toNat ≤ 0xd7ff then .ok (1, a.toNat)
    else if a.toNat ≤ 0xdbff then
      match rest with
      | b :: _ =>
        if b &&& 0xfc00#16 ≠ 0xdc00#16 then .error .ilseq
        else .ok (2, ((a.toNat &&& 0x3ff) <<< 10 ||| (b.toNat &&& 0x3ff)) + 0x10000)
      | _ => .error .ilseq
    else if a.toNat ≤ 0xdfff then .error .ilseq
    else .ok (1, a.toNat)

/-- Source: `utf16_encode_char` (`unicode.c:153`): the units that are written. The low surrogate is
the first one. -/
def utf16EncodeChar : Int → Except Errno (List (BitVec 16))
  | .negSucc _ => .error .inval
  | .ofNat codepoint =>
    if codepoint ≤ 0xd7ff then .ok [.ofNat 16 codepoint]
    else if codepoint ≤ 0xdfff then .error .inval
    else if codepoint ≤ 0xffff then .ok [.ofNat 16 codepoint]
    else if codepoint ≤ 0x10ffff then
      .ok [.ofNat 16 (0xdc00 + (codepoint - 0x10000 &&& 0x3ff)),
        .ofNat 16 (0xd800 + ((codepoint - 0x10000) >>> 10 &&& 0x3ff))]
    else .error .inval

/-! ## Strings -/

/-- The loop of `utf16_to_utf8` and `utf8_to_utf16`: what it returns and the units that it wrote until
then. It ends behind a zero. The fuel is the number of units that are left, of which every round takes
at least one. -/
def transcode (decode : List α → Except Errno (Nat × Nat)) (encode : Int → Except Errno (List β)) :
    Nat → List α → Except Errno Nat × List β
  | 0, _ => (.ok 0, [])
  | fuel + 1, data =>
    if data.isEmpty then (.ok 0, [])
    else
      match decode data with
      | .error e => (.error e, [])
      | .ok (taken, codepoint) =>
        match encode codepoint with
        | .error e => (.error e, [])
        | .ok out =>
          if codepoint = 0 then (.ok out.length, out)
          else
            let rest := transcode decode encode fuel (data.drop taken)
            (rest.1.map (out.length + ·), out ++ rest.2)

/-- Source: `utf16_to_utf8` (`unicode.c:190`). -/
def utf16ToUtf8 (utf16 : List (BitVec 16)) : Except Errno Nat × List (BitVec 8) :=
  transcode utf16DecodeChar utf8EncodeChar utf16.length utf16

/-- Source: `utf8_to_utf16` (`unicode.c:208`). -/
def utf8ToUtf16 (utf8 : List (BitVec 8)) : Except Errno Nat × List (BitVec 16) :=
  transcode utf8DecodeChar utf16EncodeChar utf8.length utf8

/-! ## Scalar values -/

/-- The code points that are not surrogates. -/
def IsScalar (c : Nat) : Prop := c < 0xd800 ∨ 0xdfff < c ∧ c ≤ 0x10ffff
  deriving Decidable

/-- The form of a scalar value in UTF-8. -/
def utf8Form (c : Nat) : List (BitVec 8) :=
  if c < 0x80 then [.ofNat 8 c]
  else if c < 0x800 then [.ofNat 8 (0xc0 + c / 64), .ofNat 8 (0x80 + c % 64)]
  else if c < 0x10000 then
    [.ofNat 8 (0xe0 + c / 4096), .ofNat 8 (0x80 + c / 64 % 64), .ofNat 8 (0x80 + c % 64)]
  else
    [.ofNat 8 (0xf0 + c / 262144), .ofNat 8 (0x80 + c / 4096 % 64),
      .ofNat 8 (0x80 + c / 64 % 64), .ofNat 8 (0x80 + c % 64)]

/-! The masks and shifts as arithmetic. -/

variable {data : List (BitVec 16)} {a : BitVec 16} {c n fuel m len : Nat} {b : BitVec 8}

/-- A field of `k` bits below a number. -/
theorem or_field {a : Nat} (k x : Nat) (hc : c = 2 ^ k * a) (hm : m = 2 ^ k - 1) (hn : n = 2 ^ k) :
    c ||| (x &&& m) = c + x % n := by
  rw [hm, hn, Nat.and_two_pow_sub_one_eq_mod, hc,
    Nat.two_pow_add_eq_or_of_lt (Nat.mod_lt _ (Nat.two_pow_pos k))]

theorem shift_six (x b : Nat) : x <<< 6 ||| (b &&& 0x3f) = x * 64 + b % 64 := by
  rw [Nat.shiftLeft_eq]
  exact or_field 6 b (mul_comm ..) rfl rfl

theorem decoded_two (a b : Nat) : (a &&& 0x1f) <<< 6 ||| (b &&& 0x3f) = a % 32 * 64 + b % 64 := by
  have hmask : a &&& 0x1f = a % 32 := Nat.and_two_pow_sub_one_eq_mod a 5
  rw [shift_six, hmask]

theorem decoded_three (a b c : Nat) :
    (a &&& 0x0f) <<< 12 ||| (b &&& 0x3f) <<< 6 ||| (c &&& 0x3f) =
      (a % 16 * 64 + b % 64) * 64 + c % 64 := by
  have hmask : a &&& 0x0f = a % 16 := Nat.and_two_pow_sub_one_eq_mod a 4
  rw [Nat.shiftLeft_add _ 6 6, ← Nat.shiftLeft_or_distrib, shift_six, shift_six, hmask]

theorem decoded_four (a b c d : Nat) :
    (a &&& 0x07) <<< 18 ||| (b &&& 0x3f) <<< 12 ||| (c &&& 0x3f) <<< 6 ||| (d &&& 0x3f) =
      ((a % 8 * 64 + b % 64) * 64 + c % 64) * 64 + d % 64 := by
  have hmask : a &&& 0x07 = a % 8 := Nat.and_two_pow_sub_one_eq_mod a 3
  rw [Nat.shiftLeft_add _ 12 6, Nat.shiftLeft_add _ 6 6, Nat.shiftLeft_add _ 6 6,
    ← Nat.shiftLeft_or_distrib, ← Nat.shiftLeft_or_distrib, ← Nat.shiftLeft_or_distrib, shift_six,
    shift_six, shift_six, hmask]

theorem tail_iff (b : BitVec 8) : b &&& 0xc0#8 = 0x80#8 ↔ 0x80 ≤ b.toNat ∧ b.toNat < 0xc0 := by
  revert b
  decide +kernel

/-- **Encoding in UTF-8.** -/
theorem utf8EncodeChar_eq (h : IsScalar c) : utf8EncodeChar c = .ok (utf8Form c) := by
  have htail (x : Nat) : 0x80 ||| (x &&& 0x3f) = 0x80 + x % 64 :=
    or_field 6 x (show 0x80 = 2 ^ 6 * 2 from rfl) rfl rfl
  have htwo (x : Nat) : 0xc0 ||| (x &&& 0x1f) = 0xc0 + x % 32 :=
    or_field 5 x (show 0xc0 = 2 ^ 5 * 6 from rfl) rfl rfl
  have hthree (x : Nat) : 0xe0 ||| (x &&& 0x0f) = 0xe0 + x % 16 :=
    or_field 4 x (show 0xe0 = 2 ^ 4 * 14 from rfl) rfl rfl
  have hfour (x : Nat) : 0xf0 ||| (x &&& 0x07) = 0xf0 + x % 8 :=
    or_field 3 x (show 0xf0 = 2 ^ 3 * 30 from rfl) rfl rfl
  unfold IsScalar at h
  unfold utf8EncodeChar utf8Form
  simp only [htail, htwo, hfour, Nat.shiftRight_eq_div_pow]
  by_cases h1 : c < 0x80
  · rw [if_pos (by omega), if_pos h1]
  grind

theorem isScalar_of_encodeChar {p : Int} {bytes : List (BitVec 8)}
    (h : utf8EncodeChar p = .ok bytes) : 0 ≤ p ∧ IsScalar p.toNat := by
  cases p with
  | negSucc => cases h
  | ofNat c =>
    refine ⟨Int.natCast_nonneg c, ?_⟩
    unfold utf8EncodeChar at h
    unfold IsScalar
    dsimp only [Int.toNat] at h ⊢
    split_ifs at h <;> omega

theorem ofNat_eq_of_toNat {w : Nat} {x : BitVec w} (h : m = x.toNat) : BitVec.ofNat w m = x := by
  rw [h, BitVec.ofNat_toNat, BitVec.setWidth_eq]

theorem ok_of_ite_error {ε α : Type} {p : Prop} [Decidable p] {x : Except ε α} {e : ε} {y : α}
    (h : (if p then .error e else x) = .ok y) : ¬p ∧ x = .ok y := by
  split at h
  · cases h
  next hp => exact ⟨hp, h⟩

theorem ok_of_map {ε α β : Type} {f : α → β} {x : Except ε α} {y : β} (h : x.map f = .ok y) :
    ∃ a, x = .ok a ∧ f a = y := by
  cases x with
  | error e => cases h
  | ok a => exact ⟨a, rfl, Except.ok.inj h⟩

/-- **Decoding UTF-8.** A decoded character is the form of a scalar value. -/
theorem utf8DecodeChar_eq_ok {data : List (BitVec 8)} (hne : data ≠ [])
    (h : utf8DecodeChar data = .ok (n, c)) :
    IsScalar c ∧ n = (utf8Form c).length ∧ data = utf8Form c ++ data.drop n := by
  cases data with
  | nil => exact absurd rfl hne
  | cons a rest => ?_
  unfold utf8DecodeChar at h
  simp only [decoded_two, decoded_three, decoded_four, ne_eq, tail_iff] at h
  rcases ite_eq_iff.1 h with ⟨hascii, h⟩ | ⟨-, h⟩
  · cases h
    refine ⟨.inl (by omega), ?_⟩
    unfold utf8Form
    rw [if_pos (by omega), ofNat_eq_of_toNat rfl]
    exact ⟨rfl, rfl⟩
  obtain ⟨hlead, h⟩ := ok_of_ite_error h
  rcases ite_eq_iff.1 h with ⟨htwo, h⟩ | ⟨htwo', h⟩
  · rcases rest with _ | ⟨b, rest⟩
    · cases h
    obtain ⟨hb, h⟩ := ok_of_ite_error h
    obtain ⟨-, h⟩ := ok_of_ite_error h
    cases h
    rw [utf8Form, if_neg (by omega), if_pos (by omega), ofNat_eq_of_toNat (x := a) (by omega),
      ofNat_eq_of_toNat (x := b) (by omega)]
    exact ⟨.inl (by omega), rfl, rfl⟩
  rcases ite_eq_iff.1 h with ⟨hthree, h⟩ | ⟨hthree', h⟩
  · rcases rest with _ | ⟨b, _ | ⟨c, rest⟩⟩
    · cases h
    · cases h
    obtain ⟨hb, h⟩ := ok_of_ite_error h
    obtain ⟨hc, h⟩ := ok_of_ite_error h
    obtain ⟨hlong, h⟩ := ok_of_ite_error h
    obtain ⟨hsurrogate, h⟩ := ok_of_ite_error h
    cases h
    rw [utf8Form, if_neg (by omega), if_neg (by omega), if_pos (by omega),
      ofNat_eq_of_toNat (x := a) (by omega), ofNat_eq_of_toNat (x := b) (by omega),
      ofNat_eq_of_toNat (x := c) (by omega)]
    exact ⟨by unfold IsScalar; omega, rfl, rfl⟩
  rcases ite_eq_iff.1 h with ⟨hfour, h⟩ | ⟨-, h⟩
  · rcases rest with _ | ⟨b, _ | ⟨c, _ | ⟨d, rest⟩⟩⟩
    · cases h
    · cases h
    · cases h
    obtain ⟨hb, h⟩ := ok_of_ite_error h
    obtain ⟨hc, h⟩ := ok_of_ite_error h
    obtain ⟨hd, h⟩ := ok_of_ite_error h
    obtain ⟨hlong, h⟩ := ok_of_ite_error h
    obtain ⟨hhigh, h⟩ := ok_of_ite_error h
    cases h
    rw [utf8Form, if_neg (by omega), if_neg (by omega), if_neg (by omega),
      ofNat_eq_of_toNat (x := a) (by omega), ofNat_eq_of_toNat (x := b) (by omega),
      ofNat_eq_of_toNat (x := c) (by omega), ofNat_eq_of_toNat (x := d) (by omega)]
    exact ⟨.inr (by omega), rfl, rfl⟩
  cases h

theorem utf8DecodeChar_utf8Form (h : IsScalar c) (rest : List (BitVec 8)) :
    utf8DecodeChar (utf8Form c ++ rest) = .ok ((utf8Form c).length, c) := by
  unfold IsScalar at h
  unfold utf8Form
  split_ifs <;> simp only [cons_append, nil_append, utf8DecodeChar, decoded_two, decoded_three,
    decoded_four, ne_eq, tail_iff, BitVec.toNat_ofNat, length_cons, length_nil]
  all_goals
    simp (disch := omega) only [if_neg, if_pos]
    congr 2
    omega

/-- A form is a byte that starts it, which is zero only for the code point zero, and continuation
bytes. -/
theorem utf8Form_eq_cons (h : IsScalar c) : ∃ (lead : BitVec 8) (tail : List (BitVec 8)),
    utf8Form c = lead :: tail ∧ (lead.toNat < 0x80 ∨ 0xc0 ≤ lead.toNat) ∧ (lead.toNat = 0 → c = 0) ∧
      (lead.toNat < 0xf0 ↔ c < 0x10000) ∧ ∀ b ∈ tail, 0x80 ≤ b.toNat ∧ b.toNat < 0xc0 := by
  unfold IsScalar at h
  unfold utf8Form
  split_ifs <;> refine ⟨_, _, rfl, ?_⟩ <;> simp <;> omega

theorem utf8Form_ne_nil (c : Nat) : utf8Form c ≠ [] := by
  unfold utf8Form
  split_ifs <;> exact cons_ne_nil _ _

theorem zero_notMem_utf8Form (h : IsScalar c) (hc : c ≠ 0) : 0#8 ∉ utf8Form c := by
  obtain ⟨lead, tail, hform, -, hlead, -, htail⟩ := utf8Form_eq_cons h
  rw [hform, mem_cons, not_or]
  exact ⟨fun hzero => hc (hlead (hzero ▸ rfl)), fun hmem => absurd (htail _ hmem).1 (by decide)⟩

/-- The units that `utf16_encode_char` writes for a scalar value. -/
def utf16Out (c : Nat) : List (BitVec 16) :=
  if c < 0x10000 then [.ofNat 16 c]
  else
    [.ofNat 16 (0xdc00 + (c - 0x10000) % 1024), .ofNat 16 (0xd800 + (c - 0x10000) / 1024)]

/-- **Encoding in UTF-16.** -/
theorem utf16EncodeChar_eq (h : IsScalar c) : utf16EncodeChar c = .ok (utf16Out c) := by
  have hmask (x : Nat) : x &&& 0x3ff = x % 1024 := Nat.and_two_pow_sub_one_eq_mod x 10
  unfold IsScalar at h
  unfold utf16EncodeChar utf16Out
  simp only [hmask, Nat.shiftRight_eq_div_pow]
  grind

theorem low_iff (b : BitVec 16) :
    b &&& 0xfc00#16 = 0xdc00#16 ↔ 0xdc00 ≤ b.toNat ∧ b.toNat ≤ 0xdfff := by
  have hdiv : (b.toNat &&& 0xfc00) / 2 ^ 10 = b.toNat / 2 ^ 10 := by
    rw [← Nat.shiftRight_eq_div_pow, Nat.shiftRight_and_distrib, ← Nat.shiftRight_eq_div_pow]
    have hmask : b.toNat >>> 10 &&& 0x3f = b.toNat >>> 10 % 64 := Nat.and_two_pow_sub_one_eq_mod _ 6
    refine hmask.trans (Nat.mod_eq_of_lt ?_)
    omega
  have hmod : (b.toNat &&& 0xfc00) % 2 ^ 10 = 0 := by
    rw [Nat.and_mod_two_pow]
    exact Nat.and_zero _
  rw [← BitVec.toNat_inj, BitVec.toNat_and]
  simp only [BitVec.toNat_ofNat, Nat.reducePow, Nat.reduceMod]
  omega

theorem utf16DecodeChar_unit (h : ¬(0xd800 ≤ a.toNat ∧ a.toNat ≤ 0xdfff))
    (rest : List (BitVec 16)) : utf16DecodeChar (a :: rest) = .ok (1, a.toNat) := by
  unfold utf16DecodeChar
  dsimp only
  by_cases hlow : a.toNat ≤ 0xd7ff
  · rw [if_pos hlow]
  rw [if_neg hlow, if_neg (by omega), if_neg (by omega)]

theorem utf16DecodeChar_pair {b : BitVec 16} (ha : 0xd800 ≤ a.toNat ∧ a.toNat ≤ 0xdbff)
    (hb : 0xdc00 ≤ b.toNat ∧ b.toNat ≤ 0xdfff) (rest : List (BitVec 16)) :
    ∃ c, utf16DecodeChar (a :: b :: rest) = .ok (2, c) ∧ 0x10000 ≤ c := by
  unfold utf16DecodeChar
  dsimp only
  rw [if_neg (by omega), if_pos (by omega), if_neg (not_not.2 ((low_iff b).2 hb))]
  exact ⟨_, rfl, Nat.le_add_left ..⟩

theorem utf16DecodeChar_stray (ha : 0xd800 ≤ a.toNat ∧ a.toNat ≤ 0xdfff) {rest : List (BitVec 16)}
    (hrest : a.toNat ≤ 0xdbff → ∀ b rest', rest = b :: rest' →
      ¬(0xdc00 ≤ b.toNat ∧ b.toNat ≤ 0xdfff)) : utf16DecodeChar (a :: rest) = .error .ilseq := by
  unfold utf16DecodeChar
  dsimp only
  rw [if_neg (by omega)]
  by_cases hhigh : a.toNat ≤ 0xdbff
  · rw [if_pos hhigh]
    cases rest with
    | nil => rfl
    | cons b rest => exact if_pos (mt (low_iff b).1 (hrest hhigh b rest rfl))
  rw [if_neg hhigh, if_pos (by omega)]

/-- **Reading back** what was written in UTF-16 gives the code point below 0x10000 and fails above. -/
theorem utf16DecodeChar_utf16Out (h : IsScalar c) (rest : List (BitVec 16)) :
    utf16DecodeChar (utf16Out c ++ rest) = if c < 0x10000 then .ok (1, c) else .error .ilseq := by
  unfold IsScalar at h
  unfold utf16Out
  split
  · have htoNat : (BitVec.ofNat 16 c).toNat = c := by
      rw [BitVec.toNat_ofNat]
      omega
    rw [singleton_append, utf16DecodeChar_unit (by omega), htoNat]
  have htoNat : (BitVec.ofNat 16 (0xdc00 + (c - 0x10000) % 1024)).toNat =
      0xdc00 + (c - 0x10000) % 1024 := by
    rw [BitVec.toNat_ofNat]
    omega
  exact utf16DecodeChar_stray (by omega) fun hhigh => by omega

/-- A decoded character is a scalar value. -/
theorem utf16DecodeChar_eq_ok (hne : data ≠ []) (h : utf16DecodeChar data = .ok (n, c)) :
    IsScalar c ∧ 0 < n := by
  cases data with
  | nil => exact absurd rfl hne
  | cons a rest => ?_
  unfold utf16DecodeChar at h
  dsimp only at h
  split at h
  · cases h
    exact ⟨.inl (by omega), by omega⟩
  split at h
  · split at h
    · next b rest =>
      obtain ⟨-, h⟩ := ok_of_ite_error h
      have hhigh : (a.toNat &&& 0x3ff) <<< 10 ||| (b.toNat &&& 0x3ff) < 2 ^ 20 :=
        Nat.or_lt_two_pow (by
          have := Nat.and_le_right (n := a.toNat) (m := 0x3ff)
          omega) (by
          have := Nat.and_le_right (n := b.toNat) (m := 0x3ff)
          omega)
      cases h
      exact ⟨.inr (by omega), by omega⟩
    cases h
  obtain ⟨hlow, h⟩ := ok_of_ite_error h
  cases h
  exact ⟨.inr (by omega), by omega⟩

/-! ## Strings of scalar values -/

section

variable {α β : Type} {decode : List α → Except Errno (Nat × Nat)}
  {encode : Int → Except Errno (List β)} {data : List α} {out : List β} {taken codepoint : Nat}

theorem transcode_succ (fuel : Nat) (hne : data ≠ []) (hdecode : decode data = .ok (taken, codepoint))
    (hencode : encode codepoint = .ok out) :
    transcode decode encode (fuel + 1) data =
      if codepoint = 0 then (.ok out.length, out)
      else
        ((transcode decode encode fuel (data.drop taken)).1.map (out.length + ·),
          out ++ (transcode decode encode fuel (data.drop taken)).2) := by
  rw [transcode, if_neg (by simpa using hne), hdecode]
  dsimp only
  rw [hencode]

theorem transcode_error (fuel : Nat) (hne : data ≠ []) {e : Errno} (hdecode : decode data = .error e) :
    transcode decode encode (fuel + 1) data = (.error e, []) := by
  rw [transcode, if_neg (by simpa using hne), hdecode]

end

theorem transcode_length {α β : Type} {decode : List α → Except Errno (Nat × Nat)}
    {encode : Int → Except Errno (List β)} (fuel : Nat) {data : List α}
    (h : (transcode decode encode fuel data).1 = .ok len) :
    len = (transcode decode encode fuel data).2.length := by
  fun_induction transcode decode encode fuel data generalizing len
  case case1 | case2 | case5 =>
    cases h
    rfl
  case case3 | case4 => cases h
  case case6 rest ih =>
    obtain ⟨len', hloop, rfl⟩ := ok_of_map h
    rw [length_append, ← ih hloop]

/-- A string that converts to UTF-16 is made of forms of scalar values. -/
theorem transcode_utf8 {name junk : List (BitVec 8)} (hname : 0#8 ∉ name)
    (hfuel : name.length < fuel)
    (h : (transcode utf8DecodeChar utf16EncodeChar fuel (name ++ 0#8 :: junk)).1 = .ok len) :
    ∃ points : List Nat, (∀ c ∈ points, IsScalar c ∧ c ≠ 0) ∧ name = points.flatMap utf8Form ∧
      (transcode utf8DecodeChar utf16EncodeChar fuel (name ++ 0#8 :: junk)).2 =
        points.flatMap utf16Out ++ [0#16] ∧ len = (points.flatMap utf16Out ++ [0#16]).length := by
  induction fuel generalizing name len with
  | zero => exact absurd hfuel (Nat.not_lt_zero _)
  | succ fuel ih => ?_
  have hne : name ++ 0#8 :: junk ≠ [] := by simp
  cases hdecode : utf8DecodeChar (name ++ 0#8 :: junk) with
  | error e =>
    rw [transcode_error fuel hne hdecode] at h
    cases h
  | ok r => ?_
  obtain ⟨taken, c⟩ := r
  obtain ⟨hscalar, htaken, hdata⟩ := utf8DecodeChar_eq_ok hne hdecode
  rw [transcode_succ fuel hne hdecode (utf16EncodeChar_eq hscalar)] at h ⊢
  by_cases hzero : c = 0
  · subst hzero
    have hnil : name = [] := by
      cases name with
      | nil => rfl
      | cons b name =>
        have hb : b = 0#8 := (List.cons.inj hdata).1
        exact absurd (hb ▸ mem_cons_self) hname
    cases h
    exact ⟨[], by simp, hnil, rfl, rfl⟩
  -- the form of a code point other than zero ends in front of the zero
  obtain ⟨rest, hrest⟩ : ∃ rest, name = utf8Form c ++ rest := by
    rcases append_eq_append_iff.1 hdata with ⟨x, hform, hx⟩ | ⟨x, hsplit, -⟩
    · cases x with
      | nil => exact ⟨[], by simpa using hform.symm⟩
      | cons b x =>
        obtain ⟨rfl, -⟩ := List.cons.inj hx
        refine absurd ?_ (zero_notMem_utf8Form hscalar hzero)
        simp [hform]
    exact ⟨x, hsplit⟩
  subst hrest
  have hpos := length_pos_iff.2 (utf8Form_ne_nil c)
  rw [length_append] at hfuel
  rw [append_assoc, htaken, drop_left, if_neg hzero] at h ⊢
  obtain ⟨len', hloop, rfl⟩ := ok_of_map h
  obtain ⟨points, hpoints, hform, hout, hlen⟩ := ih
    (fun hmem => hname (mem_append_right _ hmem)) (by omega) hloop
  refine ⟨c :: points, forall_mem_cons.2 ⟨⟨hscalar, hzero⟩, hpoints⟩, ?_, ?_, ?_⟩
  · rw [flatMap_cons, ← hform]
  · rw [hout, flatMap_cons, append_assoc]
  grind

/-- **Converting back.** What was written for code points below 0x10000 gives their forms; a greater
one is an error. -/
theorem transcode_utf16Out {points : List Nat} (hpoints : ∀ c ∈ points, IsScalar c ∧ c ≠ 0)
    (hfuel : points.length < fuel) (rest : List (BitVec 16)) :
    (∀ c ∈ points, c < 0x10000) ∧
      transcode utf16DecodeChar utf8EncodeChar fuel (points.flatMap utf16Out ++ 0#16 :: rest) =
        (.ok (points.flatMap utf8Form ++ [0#8]).length, points.flatMap utf8Form ++ [0#8]) ∨
    (¬∀ c ∈ points, c < 0x10000) ∧
      ∃ e, (transcode utf16DecodeChar utf8EncodeChar fuel
        (points.flatMap utf16Out ++ 0#16 :: rest)).1 = .error e := by
  induction points generalizing fuel with
  | nil =>
    obtain ⟨fuel, rfl⟩ := Nat.exists_eq_add_of_lt hfuel
    exact .inl ⟨by simp, rfl⟩
  | cons c points ih => ?_
  obtain ⟨fuel, rfl⟩ : ∃ fuel', fuel = fuel' + 1 := ⟨fuel - 1, by omega⟩
  obtain ⟨⟨hscalar, hzero⟩, hrest⟩ := forall_mem_cons.1 hpoints
  have hdecode := utf16DecodeChar_utf16Out hscalar (points.flatMap utf16Out ++ 0#16 :: rest)
  rw [← append_assoc] at hdecode
  have hne : (c :: points).flatMap utf16Out ++ 0#16 :: rest ≠ [] := by simp
  by_cases hbmp : c < 0x10000
  · rw [if_pos hbmp] at hdecode
    have hdrop : ((c :: points).flatMap utf16Out ++ 0#16 :: rest).drop 1 =
        points.flatMap utf16Out ++ 0#16 :: rest := by
      rw [flatMap_cons, utf16Out, if_pos hbmp]
      rfl
    rw [transcode_succ fuel hne hdecode (utf8EncodeChar_eq hscalar), if_neg hzero, hdrop]
    rcases ih hrest (Nat.lt_of_succ_lt_succ hfuel) with ⟨hall, heq⟩ | ⟨hnot, e, herror⟩
    · refine .inl ⟨forall_mem_cons.2 ⟨hbmp, hall⟩, ?_⟩
      rw [heq, flatMap_cons]
      simp [Except.map]
    refine .inr ⟨fun hall => hnot (forall_mem_cons.1 hall).2, e, ?_⟩
    rw [herror]
    rfl
  rw [if_neg hbmp] at hdecode
  refine .inr ⟨fun hall => hbmp (forall_mem_cons.1 hall).1, .ilseq, ?_⟩
  rw [transcode_error fuel hne hdecode]

/-- How many bytes of its buffer the conversion of a string of units to UTF-8 uses, the terminator
included: it stops behind a zero and in front of a surrogate that is not one of a pair. -/
def utf8Room : List (BitVec 16) → Nat
  | [] => 1
  | [a] =>
    if 0xd800 ≤ a.toNat ∧ a.toNat ≤ 0xdfff then 0 else (utf8Form a.toNat).length + 1
  | a :: b :: rest =>
    if a = 0 then 2
    else if 0xd800 ≤ a.toNat ∧ a.toNat ≤ 0xdbff then
      if 0xdc00 ≤ b.toNat ∧ b.toNat ≤ 0xdfff then 4 + utf8Room rest else 0
    else if 0xd800 ≤ a.toNat ∧ a.toNat ≤ 0xdfff then 0
    else (utf8Form a.toNat).length + utf8Room (b :: rest)

/-- What a run of `utf16_to_utf8` uses of its buffer. -/
def bytesUsed (r : Except Errno Nat × List (BitVec 8)) : Nat :=
  r.2.length + if r.1.isOk then 1 else 0

theorem bytesUsed_succ (fuel : Nat) {taken : Nat} (hne : data ≠ [])
    (hdecode : utf16DecodeChar data = .ok (taken, c)) (hzero : c ≠ 0) :
    bytesUsed (transcode utf16DecodeChar utf8EncodeChar (fuel + 1) data) = (utf8Form c).length +
      bytesUsed (transcode utf16DecodeChar utf8EncodeChar fuel (data.drop taken)) := by
  have hscalar := (utf16DecodeChar_eq_ok hne hdecode).1
  rw [transcode_succ fuel hne hdecode (utf8EncodeChar_eq hscalar), if_neg hzero]
  have hmap (r : Except Errno Nat) (f : Nat → Nat) : (r.map f).isOk = r.isOk := by cases r <;> rfl
  simp only [bytesUsed, hmap, length_append, add_assoc]

/-- **The bytes that the conversion uses.** -/
theorem bytesUsed_transcode (data : List (BitVec 16)) (hfuel : data.length ≤ fuel) :
    bytesUsed (transcode utf16DecodeChar utf8EncodeChar fuel data) = utf8Room data := by
  induction fuel generalizing data with
  | zero =>
    obtain rfl := length_eq_zero_iff.1 (Nat.le_zero.1 hfuel)
    rfl
  | succ fuel ih => ?_
  fun_cases utf8Room data with
  | case1 => rfl
  | case2 a hstray =>
    rw [transcode_error _ (cons_ne_nil _ _)
      (utf16DecodeChar_stray hstray fun _ _ _ hnil => by cases hnil)]
    rfl
  | case3 a hunit =>
    have hdecode := utf16DecodeChar_unit hunit []
    by_cases hzero : a.toNat = 0
    · rw [transcode_succ _ (cons_ne_nil _ _) hdecode
        (utf8EncodeChar_eq (.inl (by omega))), if_pos hzero]
      rfl
    rw [bytesUsed_succ _ (cons_ne_nil _ _) hdecode hzero, drop_one]
    cases fuel <;> rfl
  | case4 b rest => rfl
  | case5 a b rest hne hhigh hlow =>
    obtain ⟨c, hdecode, hc⟩ := utf16DecodeChar_pair hhigh hlow rest
    have hform : (utf8Form c).length = 4 := by
      unfold utf8Form
      rw [if_neg (by omega), if_neg (by omega), if_neg (by omega)]
      rfl
    rw [bytesUsed_succ _ (cons_ne_nil _ _) hdecode (by omega), hform]
    exact congrArg (4 + ·) (ih rest (Nat.le_of_succ_le (Nat.le_of_succ_le_succ hfuel)))
  | case6 a b rest hne hhigh hlow =>
    rw [transcode_error _ (cons_ne_nil _ _) (utf16DecodeChar_stray (by omega)
      fun _ _ _ hcons => by cases hcons; exact hlow)]
    rfl
  | case7 a b rest hne hhigh hstray =>
    rw [transcode_error _ (cons_ne_nil _ _) (utf16DecodeChar_stray hstray
      fun hle => absurd ⟨hstray.1, hle⟩ hhigh)]
    rfl
  | case8 a b rest hne hhigh hunit =>
    have hzero : a.toNat ≠ 0 := fun h => hne (BitVec.eq_of_toNat_eq h)
    rw [bytesUsed_succ _ (cons_ne_nil _ _) (utf16DecodeChar_unit hunit _) hzero]
    exact congrArg ((utf8Form a.toNat).length + ·) (ih _ (Nat.le_of_succ_le_succ hfuel))

/-! ## Buffers -/

/-- Source: `utf8_decode_buf` (`unicode.c:54`): what it returns, and the code points that it wrote
until then, if `codepoints` is not NULL. The fuel is the number of bytes that are left. -/
def utf8DecodeBuf (out : Bool) : Nat → List (BitVec 8) → Except Errno Nat × List Int
  | 0, _ => (.ok 0, [])
  | fuel + 1, data =>
    if data.isEmpty then (.ok 0, [])
    else
      match utf8DecodeChar data with
      | .error e => (.error e, [])
      | .ok (ret, codepoint) =>
        let rest := utf8DecodeBuf out fuel (data.drop ret)
        (rest.1.map (1 + ·), if out then codepoint :: rest.2 else [])

/-- Source: `utf8_encode_buf` (`unicode.c:103`): what it returns, and the bytes that it wrote. -/
def utf8EncodeBuf (out : Bool) : List Int → Except Errno Nat × List (BitVec 8)
  | [] => (.ok 0, [])
  | codepoint :: codepoints =>
    match utf8EncodeChar codepoint with
    | .error e => (.error e, [])
    | .ok bytes =>
      let rest := utf8EncodeBuf out codepoints
      (rest.1.map (bytes.length + ·), if out then bytes ++ rest.2 else [])

/-- All code points are scalar values. -/
def Scalars (points : List Int) : Prop := ∀ p ∈ points, 0 ≤ p ∧ IsScalar p.toNat

/-- Well-formed UTF-8. -/
def utf8Forms (points : List Int) : List (BitVec 8) := points.flatMap fun p => utf8Form p.toNat

variable {out : Bool} {points : List Int} {bytes : List (BitVec 8)}

theorem utf8EncodeBuf_eq (h : Scalars points) : utf8EncodeBuf out points =
    (.ok (utf8Forms points).length, if out then utf8Forms points else []) := by
  induction points with
  | nil => cases out <;> rfl
  | cons p points ih =>
    obtain ⟨⟨hp, hscalar⟩, hpoints⟩ := forall_mem_cons.1 h
    lift p to Nat using hp
    rw [utf8EncodeBuf, utf8EncodeChar_eq (c := p) hscalar, ih hpoints]
    cases out <;> simp [utf8Forms, Except.map]

theorem scalars_of_encodeBuf (h : (utf8EncodeBuf out points).1 = .ok n) : Scalars points := by
  induction points generalizing n with
  | nil => exact nofun
  | cons p points ih => ?_
  rw [utf8EncodeBuf] at h
  split at h
  · cases h
  next bytes hbytes =>
  obtain ⟨_, hrest, -⟩ := ok_of_map h
  exact forall_mem_cons.2 ⟨isScalar_of_encodeChar hbytes, ih hrest⟩

theorem utf8DecodeBuf_eq (h : Scalars points) (hf : (utf8Forms points).length ≤ fuel) :
    utf8DecodeBuf out fuel (utf8Forms points) = (.ok points.length, if out then points else []) := by
  induction points generalizing fuel with
  | nil => cases fuel <;> cases out <;> rfl
  | cons p points ih => ?_
  obtain ⟨⟨hp, hscalar⟩, h⟩ := forall_mem_cons.1 h
  have hpos := length_pos_iff.2 (utf8Form_ne_nil p.toNat)
  have hforms : utf8Forms (p :: points) = utf8Form p.toNat ++ utf8Forms points := flatMap_cons
  rw [hforms, length_append] at hf
  obtain ⟨fuel, rfl⟩ := Nat.exists_eq_add_one.2 (hpos.trans_le (Nat.le_of_add_right_le hf))
  rw [hforms, utf8DecodeBuf, if_neg (by simp [utf8Form_ne_nil]), utf8DecodeChar_utf8Form hscalar]
  dsimp only
  rw [drop_left, ih h (by omega), Int.toNat_of_nonneg hp]
  cases out <;> simp [Except.map, add_comm]

theorem exists_of_decodeBuf (hf : bytes.length ≤ fuel)
    (h : (utf8DecodeBuf out fuel bytes).1 = .ok n) :
    ∃ points, Scalars points ∧ bytes = utf8Forms points := by
  induction fuel generalizing bytes n with
  | zero => exact ⟨[], nofun, length_eq_zero_iff.1 (Nat.le_zero.1 hf)⟩
  | succ fuel ih => ?_
  rw [utf8DecodeBuf] at h
  split at h
  next hnil => exact ⟨[], nofun, isEmpty_iff.1 hnil⟩
  next hne =>
  split at h
  · cases h
  next ret c hchar =>
  obtain ⟨hc, hret, hbytes⟩ := utf8DecodeChar_eq_ok (by simpa using hne) hchar
  have hpos := length_pos_iff.2 (utf8Form_ne_nil c)
  obtain ⟨_, hrest, -⟩ := ok_of_map h
  obtain ⟨points, hpoints, hforms⟩ := ih (by rw [length_drop]; omega) hrest
  exact ⟨c :: points, forall_mem_cons.2 ⟨⟨Int.natCast_nonneg c, hc⟩, hpoints⟩,
    hbytes.trans (by rw [hforms]; rfl)⟩

/-- **Buffers of UTF-8.** Decoding accepts well-formed UTF-8 and nothing else, encoding accepts
scalar values and nothing else, the lengths are the same without an output, and each undoes the
other. -/
theorem utf8_buf_exact :
    (∀ out data n, (utf8DecodeBuf out data.length data).1 = .ok n ↔
      ∃ points, Scalars points ∧ data = utf8Forms points ∧ n = points.length) ∧
    (∀ out points n, (utf8EncodeBuf out points).1 = .ok n ↔
      Scalars points ∧ n = (utf8Forms points).length) ∧
    (∀ points n data, utf8EncodeBuf true points = (.ok n, data) →
      utf8DecodeBuf true data.length data = (.ok points.length, points)) ∧
    ∀ data n points, utf8DecodeBuf true data.length data = (.ok n, points) →
      utf8EncodeBuf true points = (.ok data.length, data) := by
  refine ⟨fun out data n => ⟨fun h => ?_, ?_⟩, fun out points n => ⟨fun h => ?_, ?_⟩,
    fun points n data h => ?_, fun data n points h => ?_⟩
  · obtain ⟨points, hpoints, rfl⟩ := exists_of_decodeBuf le_rfl h
    rw [utf8DecodeBuf_eq hpoints le_rfl] at h
    cases h
    exact ⟨points, hpoints, rfl, rfl⟩
  · rintro ⟨points, hpoints, rfl, rfl⟩
    rw [utf8DecodeBuf_eq hpoints le_rfl]
  · have hpoints := scalars_of_encodeBuf h
    rw [utf8EncodeBuf_eq hpoints] at h
    cases h
    exact ⟨hpoints, rfl⟩
  · rintro ⟨hpoints, rfl⟩
    rw [utf8EncodeBuf_eq hpoints]
  · have hpoints := scalars_of_encodeBuf (congrArg Prod.fst h)
    rw [utf8EncodeBuf_eq hpoints] at h
    cases h
    exact utf8DecodeBuf_eq hpoints le_rfl
  obtain ⟨points, hpoints, rfl⟩ := exists_of_decodeBuf le_rfl (congrArg Prod.fst h)
  rw [utf8DecodeBuf_eq hpoints le_rfl] at h
  cases h
  exact utf8EncodeBuf_eq hpoints

/-- The forms of scalar values make a code in which no text begins with another one by accident. -/
theorem exists_append_of_utf8Forms {xs ys : List Int} {rest : List (BitVec 8)} (hx : Scalars xs)
    (hy : Scalars ys) (h : utf8Forms xs ++ rest = utf8Forms ys) : ∃ zs, ys = xs ++ zs := by
  induction xs generalizing ys with
  | nil => exact ⟨ys, rfl⟩
  | cons x xs ih => ?_
  obtain ⟨hx0, hx⟩ := forall_mem_cons.1 hx
  cases ys with
  | nil => simp [utf8Forms, utf8Form_ne_nil] at h
  | cons y ys => ?_
  obtain ⟨hy0, hys⟩ := forall_mem_cons.1 hy
  simp only [utf8Forms, flatMap_cons, append_assoc] at h
  -- the first character of either text is what decoding finds
  have hchar := congrArg utf8DecodeChar h
  rw [utf8DecodeChar_utf8Form hx0.2, utf8DecodeChar_utf8Form hy0.2] at hchar
  obtain ⟨-, hxy⟩ := Prod.mk.inj (Except.ok.inj hchar)
  obtain rfl : x = y := by omega
  have hrest : utf8Forms xs ++ rest = utf8Forms ys := append_cancel_left h
  obtain ⟨zs, rfl⟩ := ih hx hys hrest
  exact ⟨zs, rfl⟩

/-- **A text that is cut is noticed.** The first bytes of a text in UTF-8 are accepted by
`utf8_decode_buf` exactly if the cut is between two characters, and then they are those in front of it. -/
theorem utf8_cut_iff (h : Scalars points) {k : Nat} (hk : k ≤ (utf8Forms points).length) (out : Bool)
    (n : Nat) : (utf8DecodeBuf out k ((utf8Forms points).take k)).1 = .ok n ↔
      n ≤ points.length ∧ k = (utf8Forms (points.take n)).length := by
  have hlen : ((utf8Forms points).take k).length = k := length_take_of_le hk
  constructor
  · intro hok
    obtain ⟨xs, hxs, hforms⟩ := exists_of_decodeBuf hlen.le hok
    obtain ⟨zs, rfl⟩ := exists_append_of_utf8Forms hxs h (hforms ▸ take_append_drop k _)
    rw [hforms] at hok hlen
    rw [utf8DecodeBuf_eq hxs hlen.le] at hok
    cases hok
    simpa using hlen.symm
  rintro ⟨hn, rfl⟩
  have hsplit : utf8Forms points = utf8Forms (points.take n) ++ utf8Forms (points.drop n) := by
    rw [utf8Forms, utf8Forms, utf8Forms, ← flatMap_append, take_append_drop]
  rw [hsplit, take_left, utf8DecodeBuf_eq (fun p hp => h p (mem_of_mem_take hp)) le_rfl,
    length_take_of_le hn]

/-- The text of U+20AC and `a`, cut after three bytes and after two. -/
theorem utf8_cut_euro : Scalars [0x20ac, 0x61] ∧
    (utf8DecodeBuf true 3 ((utf8Forms [0x20ac, 0x61]).take 3)).1 = .ok 1 ∧
    ¬ ∃ n, (utf8DecodeBuf true 2 ((utf8Forms [0x20ac, 0x61]).take 2)).1 = .ok n := by
  have h : Scalars [0x20ac, 0x61] := by simp [Scalars, IsScalar]
  refine ⟨h, (utf8_cut_iff h (by decide) true 1).2 (by decide), ?_⟩
  rintro ⟨n, hn⟩
  obtain ⟨hle, hlen⟩ := (utf8_cut_iff h (by decide) true n).1 hn
  simp only [length_cons, length_nil] at hle
  rcases (by omega : n = 0 ∨ n = 1 ∨ n = 2) with rfl | rfl | rfl <;> exact absurd hlen (by decide)

/-! ## Buffers of UTF-16 -/

/-- Source: `utf16_decode_buf` (`unicode.c:140`), as `utf8DecodeBuf`. -/
def utf16DecodeBuf (out : Bool) : Nat → List (BitVec 16) → Except Errno Nat × List Int
  | 0, _ => (.ok 0, [])
  | fuel + 1, data =>
    if data.isEmpty then (.ok 0, [])
    else
      match utf16DecodeChar data with
      | .error e => (.error e, [])
      | .ok (ret, codepoint) =>
        let rest := utf16DecodeBuf out fuel (data.drop ret)
        (rest.1.map (1 + ·), if out then codepoint :: rest.2 else [])

/-- Source: `utf16_encode_buf` (`unicode.c:177`), as `utf8EncodeBuf`. -/
def utf16EncodeBuf (out : Bool) : List Int → Except Errno Nat × List (BitVec 16)
  | [] => (.ok 0, [])
  | codepoint :: codepoints =>
    match utf16EncodeChar codepoint with
    | .error e => (.error e, [])
    | .ok units =>
      let rest := utf16EncodeBuf out codepoints
      (rest.1.map (units.length + ·), if out then units ++ rest.2 else [])

variable {points : List Nat}

theorem utf16EncodeBuf_eq (h : ∀ c ∈ points, IsScalar c) : utf16EncodeBuf true (points.map (↑)) =
    (.ok (points.flatMap utf16Out).length, points.flatMap utf16Out) := by
  induction points with
  | nil => rfl
  | cons c points ih =>
    obtain ⟨hc, hpoints⟩ := forall_mem_cons.1 h
    rw [map_cons, utf16EncodeBuf, utf16EncodeChar_eq hc, ih hpoints]
    simp [Except.map]

/-- **Decoding** gives the code points back exactly if they are all below 0x10000. -/
theorem utf16DecodeBuf_iff (h : ∀ c ∈ points, IsScalar c) :
    utf16DecodeBuf true (points.flatMap utf16Out).length (points.flatMap utf16Out) =
      (.ok points.length, points.map (↑)) ↔ ∀ c ∈ points, c < 0x10000 := by
  induction points with
  | nil => exact iff_of_true rfl (by simp)
  | cons c points ih => ?_
  obtain ⟨hc, hpoints⟩ := forall_mem_cons.1 h
  have hdecode := utf16DecodeChar_utf16Out hc (points.flatMap utf16Out)
  rw [forall_mem_cons]
  by_cases hbmp : c < 0x10000
  · have hunit : utf16Out c = [.ofNat 16 c] := if_pos hbmp
    rw [if_pos hbmp, hunit] at hdecode
    rw [flatMap_cons, hunit, singleton_append, length_cons, utf16DecodeBuf,
      if_neg (by simp), ← singleton_append, hdecode, and_iff_right hbmp, ← ih hpoints]
    dsimp only
    rw [singleton_append, drop_one, tail_cons]
    rcases utf16DecodeBuf true (points.flatMap utf16Out).length (points.flatMap utf16Out) with
      ⟨_ | n, out⟩ <;> simp [Except.map, add_comm]
  -- the low surrogate in front is refused
  rw [if_neg hbmp] at hdecode
  refine iff_of_false (fun heq => ?_) fun hall => hbmp hall.1
  have hpos : 0 < ((c :: points).flatMap utf16Out).length := by simp [utf16Out, hbmp]
  obtain ⟨fuel, hfuel⟩ := Nat.exists_eq_add_one.2 hpos
  rw [hfuel, utf16DecodeBuf, if_neg (by simp [utf16Out, hbmp]), flatMap_cons, hdecode] at heq
  cases heq

/-- A string of code points other than zero is converted to UTF-16. -/
theorem transcode_utf8Form (h : ∀ c ∈ points, IsScalar c ∧ c ≠ 0)
    (hf : (points.flatMap utf8Form).length < fuel) :
    transcode utf8DecodeChar utf16EncodeChar fuel (points.flatMap utf8Form ++ [0#8]) =
      (.ok (points.flatMap utf16Out ++ [0#16]).length, points.flatMap utf16Out ++ [0#16]) := by
  induction points generalizing fuel with
  | nil =>
    obtain ⟨fuel, rfl⟩ := Nat.exists_eq_add_one.2 hf
    rfl
  | cons c points ih => ?_
  obtain ⟨⟨hc, hzero⟩, hpoints⟩ := forall_mem_cons.1 h
  rw [flatMap_cons, length_append] at hf
  obtain ⟨fuel, rfl⟩ : ∃ fuel', fuel = fuel' + 1 := ⟨fuel - 1, by omega⟩
  have hpos := length_pos_iff.2 (utf8Form_ne_nil c)
  rw [flatMap_cons, append_assoc, transcode_succ fuel (by simp) (utf8DecodeChar_utf8Form hc _)
    (utf16EncodeChar_eq hc), if_neg hzero, drop_left, ih hpoints (by omega)]
  simp [Except.map]

/-- Every code point takes a unit at least. -/
theorem length_le_utf16Out (points : List Nat) :
    points.length ≤ (points.flatMap utf16Out).length := by
  induction points with
  | nil => simp
  | cons c points ih =>
    have hunit : 1 ≤ (utf16Out c).length := by
      unfold utf16Out
      split <;> simp
    rw [flatMap_cons, length_append, length_cons]
    omega

end Stanix

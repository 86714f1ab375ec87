import Stanix.Fs.Fat.Table

/-!
# What a write to the allocation table changes

A successful write of the entry of `c`, followed by a read of the entry of `c'`: the read should give
the value written if the clusters are equal and what it gave before if they are not, and the four
reserved bits of a 32-bit entry should neither be read nor written (`TableLaw`).

The 16-bit table has these properties. In the 12-bit table the entry of an odd cluster is taken from
the second and the third byte at its offset, and the third byte is the first one of the next entry,
so two neighbours share it. In the 32-bit table a read compares the entry with the end-of-chain mark
before the reserved bits are masked, and a write clears them.
-/

namespace Stanix

open ByteStore FatType BitVec List FatSuperblock

/-! ## Packed entries as numbers -/

theorem toNat_oddEntry12 (e1 e2 : BitVec 8) :
    (oddEntry12 e1 e2).toNat = e1.toNat / 16 + 16 * e2.toNat := by
  have hlo : (e1.setWidth 16 >>> 4).toNat = e1.toNat / 16 := by
    simp only [toNat_ushiftRight, toNat_setWidth]
    omega
  have hhi : (e2.setWidth 16 <<< 4).toNat = 2 ^ 4 * e2.toNat := by
    simp only [toNat_shiftLeft, toNat_setWidth]
    omega
  unfold oddEntry12
  rw [toNat_or_low _ _ 4 _ (by omega) hhi]
  omega

theorem toNat_evenEntry12 (e0 e1 : BitVec 8) :
    (evenEntry12 e0 e1).toNat = e0.toNat + 256 * (e1.toNat % 16) := by
  have hlo : (e0.setWidth 16).toNat = e0.toNat := by
    simp only [toNat_setWidth]
    omega
  have hhi : ((e1 &&& 0x0F#8).setWidth 16 <<< 8).toNat = 2 ^ 8 * (e1.toNat % 16) := by
    simp only [toNat_shiftLeft, toNat_setWidth, Nat.shiftLeft_eq, toNat_and_mask _ 0x0F#8 4 rfl]
    omega
  unfold evenEntry12
  rw [toNat_or_low _ _ 8 _ (by omega) hhi]
  omega

theorem toNat_oddByte (next : BitVec 32) (e1 : BitVec 8) :
    ((((next <<< 4) &&& 0xF0#32) ||| (e1.setWidth 32 &&& 0x0F#32)).setWidth 8).toNat =
      next.toNat % 16 * 16 + e1.toNat % 16 := by
  have hlo : (e1.setWidth 32 &&& 0x0F#32).toNat = e1.toNat % 16 := by
    rw [toNat_and_mask _ 0x0F#32 4 rfl, BitVec.toNat_setWidth]
    omega
  have hhi : ((next <<< 4) &&& 0xF0#32).toNat = 2 ^ 4 * (next.toNat % 16) := by
    rw [show (next <<< 4) &&& 0xF0#32 = (next &&& 0x0F#32) <<< 4 by
      rw [shiftLeft_and_distrib]; rfl]
    simp only [toNat_shiftLeft, toNat_and_mask _ 0x0F#32 4 rfl]
    omega
  rw [BitVec.toNat_setWidth, BitVec.or_comm, toNat_or_low _ _ 4 _ (by omega) hhi, hlo]
  omega

theorem toNat_and_high (e : BitVec 8) :
    (e.setWidth 32 &&& 0xF0#32).toNat = 2 ^ 4 * (e.toNat / 16) := by
  revert e
  decide +kernel

theorem toNat_evenByte (next : BitVec 32) (e1 : BitVec 8) :
    (((e1.setWidth 32 &&& 0xF0#32) ||| ((next >>> 8) &&& 0x0F#32)).setWidth 8).toNat =
      e1.toNat / 16 * 16 + next.toNat / 256 % 16 := by
  have hlo : ((next >>> 8) &&& 0x0F#32).toNat = next.toNat / 256 % 16 := by
    rw [toNat_and_mask _ 0x0F#32 4 rfl, BitVec.toNat_ushiftRight]
    omega
  have hhi := toNat_and_high e1
  rw [BitVec.toNat_setWidth, BitVec.or_comm, toNat_or_low _ _ 4 _ (by omega) hhi]
  omega

/-! ## Entries of a table -/

namespace FatType

/-- The number of bytes that are read and written for an entry. -/
def entryBytes : FatType → Nat
  | .fat12 => 3
  | .fat16 => 2
  | .fat32 => 4

/-- The number in an entry, given the bytes at its offset. -/
def entryValue (t : FatType) (c : Nat) (b : Nat → BitVec 8) : Nat :=
  match t with
  | .fat12 =>
    if c % 2 = 1 then (b 1).toNat / 16 + 16 * (b 2).toNat else (b 0).toNat + 256 * ((b 1).toNat % 16)
  | .fat16 => (b 0).toNat + 256 * (b 1).toNat
  | .fat32 => (b 0).toNat + 256 * (b 1).toNat + 65536 * (b 2).toNat + 16777216 * (b 3).toNat

/-- The bytes at the offset of an entry once the entry is set, given those before. -/
def entrySet (t : FatType) (c next : BitVec 32) (b : Nat → BitVec 8) : List (BitVec 8) :=
  match t with
  | .fat12 => setEntry12 c next (b 0) (b 1) (b 2)
  | .fat16 => [(next.setWidth 16).setWidth 8, (next.setWidth 16 >>> 8).setWidth 8]
  | .fat32 =>
    [(next &&& 0x0FFFFFFF#32).setWidth 8, ((next &&& 0x0FFFFFFF#32) >>> 8).setWidth 8,
      ((next &&& 0x0FFFFFFF#32) >>> 16).setWidth 8, ((next &&& 0x0FFFFFFF#32) >>> 24).setWidth 8]

@[simp] theorem length_entrySet (t : FatType) (c next : BitVec 32) (b : Nat → BitVec 8) :
    (t.entrySet c next b).length = t.entryBytes := by
  cases t
  · simp only [entrySet, setEntry12]
    split <;> rfl
  · rfl
  rfl

end FatType

/-! ## Volumes -/

/-- A superblock whose table holds an entry for every cluster: at least one copy of the table,
cluster numbers that fit an entry, a start without overflow of `int`, and copies that are apart,
unless the distance of the copies was never set, as `fat_mount` leaves it. -/
structure FatVolume extends FatSuperblock where
  hasTable : 0 < fatCount.toNat
  clusters_le : dataClusters.toNat + 2 ≤ 2 ^ fatType.width
  start_lt : reservedSectors.toNat * sectorSize.toNat < 2 ^ 31
  tables_apart : sectorsPerFat = 0 ∨
    fatType.tableBytes (dataClusters.toNat + 2) ≤ sectorsPerFat.toNat * sectorSize.toNat

namespace FatVolume

/-- Where the bytes of an entry start in the first copy of the table. -/
def entryStart (vol : FatVolume) (c : BitVec 32) : Nat :=
  vol.reservedSectors.toNat * vol.sectorSize.toNat + vol.fatType.entryOffset c.toNat

/-- The number in the entry of a cluster. -/
def entry (vol : FatVolume) (bytes : ByteStore) (c : BitVec 32) : Nat :=
  vol.fatType.entryValue c.toNat fun i => bytes (vol.entryStart c + i)

variable {vol : FatVolume} {c c' : BitVec 32} {dev dev' : FatDevice} {next : BitVec 32}
  {b b' : Nat → BitVec 8} {bytes : ByteStore} {i offset : Nat}

theorem scale_of_isData (h : vol.IsData c) :
    c.toNat < 2 ^ 28 ∧ (c * 3#32 / 2#32).toNat = c.toNat * 3 / 2 ∧ (c * 2#32).toNat = c.toNat * 2 ∧
      (c * 4#32).toNat = c.toNat * 4 := by
  have hw : 2 ^ vol.fatType.width ≤ 2 ^ 28 := by cases vol.fatType <;> decide
  have hlt : c.toNat < 2 ^ 28 := by have := vol.clusters_le; have := h.2; omega
  refine ⟨hlt, ?_, ?_, ?_⟩
  · rw [toNat_udiv, toNat_mul]
    simp only [toNat_ofNat, Nat.reducePow, Nat.reduceMod]
    omega
  · rw [toNat_mul]
    simp only [toNat_ofNat]
    omega
  rw [toNat_mul]
  simp only [toNat_ofNat]
  omega

theorem odd_iff (c : BitVec 32) : c % 2#32 ≠ 0#32 ↔ c.toNat % 2 = 1 := by
  rw [Ne, ← toNat_inj, toNat_umod]
  simp only [toNat_ofNat, Nat.reducePow, Nat.reduceMod]
  omega

theorem toNat_append_bytes (b3 b2 b1 b0 : BitVec 8) :
    (b3 ++ b2 ++ b1 ++ b0).toNat =
      b0.toNat + 256 * b1.toNat + 65536 * b2.toNat + 16777216 * b3.toNat := by
  rw [toNat_append_byte, toNat_append_byte, toNat_append_byte]
  omega

theorem toNat_capped {w : Nat} (hw : w ≤ 32) (e m : BitVec w) (eof : BitVec 32)
    (hm : m.toNat = eof.toNat) :
    (if e ≥ m then eof else e.setWidth 32).toNat = min e.toNat eof.toNat := by
  have he := Nat.mod_eq_of_lt (lt_of_lt_of_le e.isLt (Nat.pow_le_pow_right (by decide) hw))
  split
  · next h =>
    have := le_def.1 h
    omega
  next h =>
  have := mt le_def.2 h
  rw [toNat_setWidth, he]
  omega

theorem toNat_endOfChain (t : FatType) (v : BitVec 32) :
    (t.endOfChain v).toNat = min v.toNat t.fatEof.toNat := by
  simpa [endOfChain] using toNat_capped le_rfl v t.fatEof t.fatEof rfl

/-- **Reading an entry.** The code answers with the number in the entry, and with the end-of-chain
mark for every number from the mark on. -/
theorem toNat_fatGetNextCluster (h : vol.IsData c) (bytes : ByteStore) :
    (fatGetNextCluster vol.toFatSuperblock bytes c).toNat =
      min (vol.entry bytes c) vol.fatType.fatEof.toNat := by
  obtain ⟨hlt, h3, h2, h4⟩ := scale_of_isData h
  have hs := vol.start_lt
  unfold fatGetNextCluster entry entryStart
  generalize vol.reservedSectors.toNat * vol.sectorSize.toNat = start at hs ⊢
  have hoff {k : Nat} (hk : k ≤ c.toNat * 4) : (start + k) % 2 ^ 32 = start + k :=
    Nat.mod_eq_of_lt (by omega)
  cases ht : vol.fatType with
  | fat12 =>
    simp only [entryValue, odd_iff, h3, hoff (by omega : c.toNat * 3 / 2 ≤ _), fatEof]
    split
    · rw [← toNat_oddEntry12]
      exact toNat_capped (by decide) _ 0xFF8#16 _ rfl
    rw [← toNat_evenEntry12]
    exact toNat_capped (by decide) _ 0xFF8#16 _ rfl
  | fat16 =>
    simp only [entryValue, h2, hoff (by omega : c.toNat * 2 ≤ _), fatEof]
    refine (toNat_capped (by decide) _ 0xFFF8#16 0xfff8#32 rfl).trans ?_
    rw [toNat_append_byte]
    rfl
  | fat32 => ?_
  simp only [entryValue, entryOffset, h4, hoff le_rfl, fatEof, add_zero]
  have hent := toNat_append_bytes (bytes (start + c.toNat * 4 + 3))
    (bytes (start + c.toNat * 4 + 2)) (bytes (start + c.toNat * 4 + 1)) (bytes (start + c.toNat * 4))
  split
  · next hge =>
    have hge := le_def.1 hge
    omega
  next hge =>
  have hge := mt le_def.2 hge
  rw [toNat_and_mask _ 0x0FFFFFFF#32 28 rfl]
  simp only [toNat_ofNat] at hge ⊢
  omega

/-! ## Writing an entry -/

theorem fatWriteEntry_bytes {ent : List (BitVec 8)}
    (h : fatWriteEntry dev offset ent = (.ok (), dev')) :
    dev'.bytes = dev.bytes.write offset ent := by
  unfold fatWriteEntry at h
  split at h
  · cases h
  next k dev1 hw =>
  split at h
  · cases h
  next hk =>
  cases h
  exact FatDevice.vfsWrite_bytes hw (by omega)

/-- **Writing an entry.** A successful write to the copy at `offset` replaces the bytes of the
entry there. -/
theorem fatRawSetNextCluster_bytes (h : vol.IsData c)
    (hset : fatRawSetNextCluster vol.toFatSuperblock offset c next dev = (.ok (), dev')) :
    dev'.bytes = dev.bytes.write (offset + vol.fatType.entryOffset c.toNat)
      (vol.fatType.entrySet c next fun i =>
        dev.bytes (offset + vol.fatType.entryOffset c.toNat + i)) := by
  obtain ⟨-, h3, h2, h4⟩ := scale_of_isData h
  unfold fatRawSetNextCluster at hset
  cases ht : vol.fatType with
  | fat12 =>
    simp only [ht, h3] at hset
    split at hset
    · cases hset
    next k ent12 dev1 hr =>
    have hb := dev.transfer_bytes 3
    unfold FatDevice.vfsRead at hr
    simp only [Prod.mk.injEq] at hr
    obtain ⟨-, rfl, rfl⟩ := hr
    split at hset
    · cases hset
    rw [fatWriteEntry_bytes hset, hb]
    rfl
  | fat16 =>
    simp only [ht, h2] at hset
    exact fatWriteEntry_bytes hset
  | fat32 =>
    simp only [ht, h4] at hset
    exact fatWriteEntry_bytes hset

/-- The addresses at which the entries of data clusters are read in the first copy. -/
def InTable (vol : FatVolume) (x : Nat) : Prop :=
  x < vol.reservedSectors.toNat * vol.sectorSize.toNat +
    vol.fatType.tableBytes (vol.dataClusters.toNat + 2) + 3

theorem inTable_of_isData (h : vol.IsData c) (hi : i < vol.fatType.entryBytes) :
    vol.InTable (vol.entryStart c + i) := by
  have h2 := h.2
  unfold InTable entryStart
  cases ht : vol.fatType <;> rw [ht] at hi <;>
    simp only [tableBytes, entryOffset, entryBytes] at hi ⊢ <;> omega

theorem entryStart_eq (vol : FatVolume) (c : BitVec 32) :
    vol.copyStart 0 + vol.fatType.entryOffset c.toNat = vol.entryStart c := by
  simp [copyStart, entryStart]

theorem copy_apart (h : vol.IsData c) (hi : 0 < i) :
    vol.copyStart i = vol.copyStart 0 ∨
      ∀ x, vol.InTable x → x < vol.copyStart i + vol.fatType.entryOffset c.toNat := by
  rcases vol.tables_apart with h0 | hle
  · left
    simp [copyStart, h0]
  right
  intro x hx
  have hoff : 3 ≤ vol.fatType.entryOffset c.toNat := by
    have := h.1
    cases vol.fatType <;> simp only [entryOffset] <;> omega
  have hstart : vol.copyStart i = vol.reservedSectors.toNat * vol.sectorSize.toNat +
      vol.sectorsPerFat.toNat * vol.sectorSize.toNat * i := by
    unfold copyStart
    rw [Nat.add_mul, Nat.mul_right_comm]
  have hmul := Nat.le_mul_of_pos_right (vol.sectorsPerFat.toNat * vol.sectorSize.toNat) hi
  unfold InTable at hx
  omega

/-- The bytes of the first copy once the entry of `c` is set. -/
def tableSet (vol : FatVolume) (bytes : ByteStore) (c next : BitVec 32) : ByteStore :=
  bytes.write (vol.entryStart c) (vol.fatType.entrySet c next fun i => bytes (vol.entryStart c + i))

/-- Setting an entry that is set already changes nothing. -/
theorem entrySet_idem (t : FatType) (c next : BitVec 32)
    (h : ∀ i (hi : i < (t.entrySet c next b).length), b' i = (t.entrySet c next b)[i]) :
    t.entrySet c next b' = t.entrySet c next b := by
  cases t with
  | fat16 => rfl
  | fat32 => rfl
  | fat12 => ?_
  have hlen := length_entrySet .fat12 c next b
  have h0 := h 0 (by rw [hlen]; decide)
  have h1 := h 1 (by rw [hlen]; decide)
  have h2 := h 2 (by rw [hlen]; decide)
  by_cases hodd : c % 2#32 ≠ 0#32
  · simp only [entrySet, setEntry12, if_pos hodd, getElem_cons_zero,
      getElem_cons_succ] at h0 h1 h2 ⊢
    congr 2
    apply eq_of_toNat_eq
    rw [h1, toNat_oddByte, toNat_oddByte]
    omega
  simp only [entrySet, setEntry12, if_neg hodd, getElem_cons_zero, getElem_cons_succ] at h0 h1 h2 ⊢
  rw [h2]
  congr 2
  apply eq_of_toNat_eq
  rw [h1, toNat_evenByte, toNat_evenByte]
  omega

section

variable (h : vol.IsData c) (hdev : ∀ x, vol.InTable x → dev.bytes x = vol.tableSet bytes c next x)
  (hi : 0 < i)
include h hdev hi

/-- The write to one more copy leaves the first copy as the first write left it. -/
theorem fatRawSetNextCluster_table
    (hset : fatRawSetNextCluster vol.toFatSuperblock (vol.copyStart i) c next dev =
      (.ok (), dev')) :
    ∀ x, vol.InTable x → dev'.bytes x = vol.tableSet bytes c next x := by
  intro x hx
  rw [fatRawSetNextCluster_bytes h hset]
  rcases copy_apart h hi with hsame | hpast
  · rw [hsame, entryStart_eq]
    -- the bytes of the entry are those of the first write, so the second one writes the same
    have hent : (vol.fatType.entrySet c next fun i => dev.bytes (vol.entryStart c + i)) =
        vol.fatType.entrySet c next fun i => bytes (vol.entryStart c + i) := by
      apply entrySet_idem
      intro i hi
      rw [hdev _ (inTable_of_isData h (by simpa using hi)), tableSet, write_add hi]
    rw [hent]
    by_cases hlt : x < vol.entryStart c
    · rw [write_of_lt hlt]
      exact hdev x hx
    by_cases hge : vol.entryStart c + vol.fatType.entryBytes ≤ x
    · rw [write_of_ge (by simpa using hge)]
      exact hdev x hx
    exact write_congr (by omega) (by simp; omega)
  rw [write_of_lt (hpast x hx)]
  exact hdev x hx

theorem fatSetCopies_table {left : Nat}
    (hset : fatSetCopies vol.toFatSuperblock c next left i dev = (.ok (), dev')) :
    ∀ x, vol.InTable x → dev'.bytes x = vol.tableSet bytes c next x := by
  induction left generalizing i dev with
  | zero =>
    cases hset
    exact hdev
  | succ left ih =>
    unfold fatSetCopies at hset
    split at hset
    · cases hset
    next dev1 h1 => exact ih (fatRawSetNextCluster_table h hdev hi h1) (by omega) hset

end

/-- **A successful write** sets the entry of the cluster in the first copy and changes nothing else
there. -/
theorem fatSetNextCluster_table (h : vol.IsData c)
    (hset : fatSetNextCluster vol.toFatSuperblock c next dev = (.ok (), dev')) :
    ∀ x, vol.InTable x → dev'.bytes x = vol.tableSet dev.bytes c next x := by
  obtain ⟨left, hleft⟩ := Nat.exists_eq_succ_of_ne_zero (Nat.pos_iff_ne_zero.1 vol.hasTable)
  unfold fatSetNextCluster at hset
  rw [hleft] at hset
  unfold fatSetCopies at hset
  split at hset
  · cases hset
  next dev1 h1 =>
  refine fatSetCopies_table h (fun x _ => ?_) (by omega) hset
  rw [fatRawSetNextCluster_bytes h h1]
  rfl

/-! ## The entries after a write -/

theorem entryValue_congr (t : FatType) (c : Nat) (h : ∀ i < t.entryBytes, b i = b' i) :
    t.entryValue c b = t.entryValue c b' := by
  cases t with
  | fat12 => simp only [entryValue, h 0 (by decide), h 1 (by decide), h 2 (by decide)]
  | fat16 => simp only [entryValue, h 0 (by decide), h 1 (by decide)]
  | fat32 =>
    simp only [entryValue, h 0 (by decide), h 1 (by decide), h 2 (by decide), h 3 (by decide)]

theorem tableSet_self (vol : FatVolume) (bytes : ByteStore) (c next : BitVec 32)
    (hi : i < vol.fatType.entryBytes) :
    vol.tableSet bytes c next (vol.entryStart c + i) =
      (vol.fatType.entrySet c next fun i => bytes (vol.entryStart c + i)).getD i 0 := by
  rw [tableSet, write_add (by simpa using hi), getD_eq_getElem _ _ (by simpa using hi)]

/-- The entry that is written holds the value, without what does not fit. -/
theorem entry_tableSet_self (vol : FatVolume) (bytes : ByteStore) (c next : BitVec 32) :
    vol.entry (vol.tableSet bytes c next) c = next.toNat % 2 ^ vol.fatType.width := by
  unfold entry
  rw [entryValue_congr _ _ fun i hi => vol.tableSet_self bytes c next hi]
  cases vol.fatType with
  | fat12 =>
    by_cases hodd : c % 2#32 ≠ 0#32
    · simp only [entryValue, entrySet, setEntry12, if_pos hodd,
        if_pos ((odd_iff c).1 hodd), getD_cons_succ, getD_cons_zero, toNat_oddByte,
        width]
      rw [toNat_setWidth, toNat_ushiftRight]
      omega
    simp only [entryValue, entrySet, setEntry12, if_neg hodd,
      if_neg (mt (odd_iff c).2 hodd), getD_cons_succ, getD_cons_zero, toNat_evenByte,
      width]
    rw [toNat_setWidth]
    omega
  | fat16 =>
    simp only [entryValue, entrySet, getD_cons_succ, getD_cons_zero,
      toNat_setWidth, toNat_ushiftRight, Nat.shiftRight_eq_div_pow, width]
    omega
  | fat32 =>
    simp only [entryValue, entrySet, getD_cons_succ, getD_cons_zero,
      toNat_setWidth, toNat_ushiftRight, Nat.shiftRight_eq_div_pow,
      toNat_and_mask _ 0x0FFFFFFF#32 28 rfl, width]
    omega

section

variable (vol : FatVolume) (bytes : ByteStore) (next : BitVec 32)

theorem entry_tableSet_apart
    (h : ∀ i < vol.fatType.entryBytes, vol.entryStart c' + i < vol.entryStart c ∨
      vol.entryStart c + vol.fatType.entryBytes ≤ vol.entryStart c' + i) :
    vol.entry (vol.tableSet bytes c next) c' = vol.entry bytes c' := by
  apply entryValue_congr
  intro i hi
  rcases h i hi with hlt | hge
  · exact write_of_lt hlt
  exact write_of_ge (by simpa using hge)

theorem entry_tableSet_of_ne (ht : vol.fatType ≠ .fat12) (hne : c' ≠ c) :
    vol.entry (vol.tableSet bytes c next) c' = vol.entry bytes c' := by
  have hne : c'.toNat ≠ c.toNat := by bv_omega
  apply entry_tableSet_apart
  intro i hi
  unfold entryStart
  cases h : vol.fatType with
  | fat12 => exact absurd h ht
  | fat16 =>
    simp only [h, entryOffset, entryBytes] at hi ⊢
    omega
  | fat32 =>
    simp only [h, entryOffset, entryBytes] at hi ⊢
    omega

variable {vol} (ht : vol.fatType = .fat12)
include ht

theorem entryStart_of_even (heven : c.toNat % 2 = 0) (hc : c.toNat = c'.toNat + 1) :
    vol.entryStart c = vol.entryStart c' + 2 := by
  unfold entryStart
  simp only [ht, entryOffset]
  omega

/-- In a 12-bit table the entry after an odd one takes its low byte from the entry that is
written. -/
theorem entry_tableSet_next (hodd : c.toNat % 2 = 1) (hc : c'.toNat = c.toNat + 1) :
    vol.entry (vol.tableSet bytes c next) c' =
      next.toNat / 16 % 256 + 256 * ((bytes (vol.entryStart c' + 1)).toNat % 16) := by
  have hstart := entryStart_of_even ht (by omega) hc
  have h0 := vol.tableSet_self bytes c next (show 2 < vol.fatType.entryBytes by rw [ht]; decide)
  have h1 : vol.tableSet bytes c next (vol.entryStart c' + 1) = bytes (vol.entryStart c' + 1) :=
    write_of_ge (by simp [ht, entryBytes]; omega)
  unfold entry
  simp only [ht, entryValue, if_neg (show ¬ c'.toNat % 2 = 1 by omega), h1]
  rw [hstart, h0]
  simp only [ht, entrySet, setEntry12, if_pos ((odd_iff c).2 hodd), getD_cons_succ,
    getD_cons_zero, toNat_setWidth, toNat_ushiftRight, Nat.shiftRight_eq_div_pow]

/-- In a 12-bit table the entry before an even one takes its high byte from the entry that is
written. -/
theorem entry_tableSet_prev (heven : c.toNat % 2 = 0) (hc : c.toNat = c'.toNat + 1) :
    vol.entry (vol.tableSet bytes c next) c' =
      (bytes (vol.entryStart c' + 1)).toNat / 16 + 16 * (next.toNat % 256) := by
  have hstart := entryStart_of_even ht heven hc
  have h2 := vol.tableSet_self bytes c next (show 0 < vol.fatType.entryBytes by rw [ht]; decide)
  have h1 : vol.tableSet bytes c next (vol.entryStart c' + 1) = bytes (vol.entryStart c' + 1) :=
    write_of_lt (by omega)
  unfold entry
  simp only [ht, entryValue, if_pos (show c'.toNat % 2 = 1 by omega), h1]
  rw [← hstart, ← add_zero (vol.entryStart c), h2]
  simp only [ht, entrySet, setEntry12, if_neg (mt (odd_iff c).1 (by omega)),
    getD_cons_zero, toNat_setWidth]

/-- In a 12-bit table a write changes two bytes: the second and the third one at the offset of an odd
cluster, the first and the second one at that of an even cluster. -/
theorem tableSet_of_unchanged {x : Nat}
    (hodd : c.toNat % 2 = 1 → x ≠ vol.entryStart c + 1 ∧ x ≠ vol.entryStart c + 2)
    (heven : c.toNat % 2 = 0 → x ≠ vol.entryStart c ∧ x ≠ vol.entryStart c + 1) :
    vol.tableSet bytes c next x = bytes x := by
  by_cases hlt : x < vol.entryStart c
  · exact write_of_lt hlt
  by_cases hge : vol.entryStart c + 3 ≤ x
  · exact write_of_ge (by simpa [ht, entryBytes] using hge)
  -- inside of the buffer only the byte that is written back as it was read is left
  by_cases hc : c.toNat % 2 = 1
  · obtain rfl : x = vol.entryStart c + 0 := by have := hodd hc; omega
    rw [vol.tableSet_self bytes c next (by rw [ht]; decide)]
    simp only [ht, entrySet, setEntry12, if_pos ((odd_iff c).2 hc), getD_cons_zero]
  obtain rfl : x = vol.entryStart c + 2 := by omega
  rw [vol.tableSet_self bytes c next (by rw [ht]; decide)]
  simp only [ht, entrySet, setEntry12, if_neg (mt (odd_iff c).1 hc), getD_cons_zero, getD_cons_succ]

theorem entry_tableSet_far (hne : c' ≠ c) (hnext : ¬ (c.toNat % 2 = 1 ∧ c'.toNat = c.toNat + 1))
    (hprev : ¬ (c.toNat % 2 = 0 ∧ c.toNat = c'.toNat + 1)) :
    vol.entry (vol.tableSet bytes c next) c' = vol.entry bytes c' := by
  have hne : c'.toNat ≠ c.toNat := by bv_omega
  have hs : vol.entryStart c' + c.toNat * 3 / 2 = vol.entryStart c + c'.toNat * 3 / 2 := by
    unfold entryStart
    simp only [ht, entryOffset]
    omega
  have hkeep (i : Nat) (hi : i = 1 ∨ (i = 2 ∧ c'.toNat % 2 = 1) ∨ (i = 0 ∧ c'.toNat % 2 = 0)) :
      vol.tableSet bytes c next (vol.entryStart c' + i) = bytes (vol.entryStart c' + i) :=
    tableSet_of_unchanged bytes next ht (by omega) (by omega)
  unfold entry
  simp only [ht, entryValue]
  split
  · next h => rw [hkeep 1 (.inl rfl), hkeep 2 (.inr (.inl ⟨rfl, h⟩))]
  next h => rw [hkeep 1 (.inl rfl), hkeep 0 (.inr (.inr ⟨rfl, by omega⟩))]

end

end FatVolume

/-! ## The law of the table -/

/-- The four reserved bits of the entry of a cluster in a 32-bit table. -/
def FatVolume.topBits (vol : FatVolume) (bytes : ByteStore) (c : BitVec 32) : Nat :=
  vol.entry bytes c / 2 ^ 28

/-- The table with the reserved bits of the entry of `c` cleared. -/
def FatVolume.clearTop (vol : FatVolume) (bytes : ByteStore) (c : BitVec 32) : ByteStore :=
  bytes.write (vol.entryStart c + 3) [bytes (vol.entryStart c + 3) &&& 0x0F#8]

/-- **The law of the allocation table** for a write of `v` to the entry of `c` that turned the
device `dev` into `dev'`, and a read of the entry of `c'`. -/
structure TableLaw (vol : FatVolume) (dev dev' : FatDevice) (c c' v : BitVec 32) : Prop where
  written : c' = c →
    fatGetNextCluster vol.toFatSuperblock dev'.bytes c' = vol.fatType.endOfChain v
  kept : c' ≠ c → fatGetNextCluster vol.toFatSuperblock dev'.bytes c' =
    fatGetNextCluster vol.toFatSuperblock dev.bytes c'
  topIgnored : vol.fatType = .fat32 → fatGetNextCluster vol.toFatSuperblock dev.bytes c' =
    fatGetNextCluster vol.toFatSuperblock (vol.clearTop dev.bytes c') c'
  topKept : vol.fatType = .fat32 → vol.topBits dev'.bytes c = vol.topBits dev.bytes c

/-- When a write of `v` to the entry of `c` cannot be seen in the entry of `c'`, and the reserved
bits play no part. In a 12-bit table an odd entry and the next one share a byte, which must hold what
is written, or both values of the second entry must be end-of-chain marks. In a 32-bit table the
reserved bits must be zero, or hidden by an end-of-chain mark in the entry that is read. -/
def EntriesApart (vol : FatVolume) (bytes : ByteStore) (c c' v : BitVec 32) : Prop :=
  match vol.fatType with
  | .fat12 =>
    (c.toNat % 2 = 1 → c'.toNat = c.toNat + 1 →
      (bytes (vol.entryStart c')).toNat = v.toNat / 16 ∨
        (bytes (vol.entryStart c' + 1)).toNat % 16 = 15 ∧
          0xF8 ≤ (bytes (vol.entryStart c')).toNat ∧ 0xF8 ≤ v.toNat / 16) ∧
    (c.toNat % 2 = 0 → c.toNat = c'.toNat + 1 →
      (bytes (vol.entryStart c)).toNat = v.toNat % 256)
  | .fat16 => True
  | .fat32 =>
    vol.topBits bytes c = 0 ∧
      (vol.topBits bytes c' = 0 ∨ 0x0FFFFFF8 ≤ vol.entry bytes c' % 2 ^ 28)

namespace FatVolume

variable {vol : FatVolume} {c c' v : BitVec 32} {dev dev' : FatDevice}

theorem entry_set (hc : vol.IsData c) (hc' : vol.IsData c')
    (hset : fatSetNextCluster vol.toFatSuperblock c v dev = (.ok (), dev')) :
    vol.entry dev'.bytes c' = vol.entry (vol.tableSet dev.bytes c v) c' :=
  entryValue_congr _ _ fun _ hi => fatSetNextCluster_table hc hset _ (inTable_of_isData hc' hi)

theorem entry_clearTop (ht : vol.fatType = .fat32) (bytes : ByteStore) (c : BitVec 32) :
    vol.entry (vol.clearTop bytes c) c = vol.entry bytes c % 2 ^ 28 := by
  have hlow (i : Nat) (hi : i < 3) :
      vol.clearTop bytes c (vol.entryStart c + i) = bytes (vol.entryStart c + i) :=
    write_of_lt (by omega)
  have htop : vol.clearTop bytes c (vol.entryStart c + 3) =
      bytes (vol.entryStart c + 3) &&& 0x0F#8 :=
    write_add (i := 0) (by simp)
  unfold entry
  simp only [ht, entryValue, hlow 0 (by decide), hlow 1 (by decide), hlow 2 (by decide),
    htop, toNat_and_mask _ 0x0F#8 4 rfl]
  omega

/-- The law, in terms of the numbers in the entries. -/
theorem tableLaw_iff_entries (hc : vol.IsData c) (hc' : vol.IsData c')
    (hv : v.toNat < 2 ^ vol.fatType.width)
    (hset : fatSetNextCluster vol.toFatSuperblock c v dev = (.ok (), dev')) :
    TableLaw vol dev dev' c c' v ↔
      (c' ≠ c → min (vol.entry (vol.tableSet dev.bytes c v) c') vol.fatType.fatEof.toNat =
        min (vol.entry dev.bytes c') vol.fatType.fatEof.toNat) ∧
      (vol.fatType = .fat32 →
        min (vol.entry dev.bytes c') vol.fatType.fatEof.toNat =
          min (vol.entry dev.bytes c' % 2 ^ 28) vol.fatType.fatEof.toNat ∧
        vol.topBits dev.bytes c = 0) := by
  have hself : vol.entry dev'.bytes c = v.toNat := by
    rw [entry_set hc hc hset, entry_tableSet_self, Nat.mod_eq_of_lt hv]
  have hget (bytes : ByteStore) := toNat_fatGetNextCluster hc' bytes
  have htop (ht : vol.fatType = .fat32) : vol.topBits dev'.bytes c = 0 := by
    rw [ht, width] at hv
    rw [topBits]
    omega
  constructor
  · intro law
    refine ⟨fun hne => ?_, fun ht => ⟨?_, ?_⟩⟩
    · rw [← entry_set hc hc' hset, ← hget, ← hget, law.kept hne]
    · rw [← entry_clearTop ht, ← hget, ← hget, law.topIgnored ht]
    rw [← law.topKept ht, htop ht]
  rintro ⟨hkept, h32⟩
  refine ⟨fun heq => ?_, fun hne => ?_, fun ht => ?_, fun ht => ?_⟩
  · subst heq
    apply eq_of_toNat_eq
    rw [hget, hself, toNat_endOfChain]
  · apply eq_of_toNat_eq
    rw [hget, hget, entry_set hc hc' hset, hkept hne]
  · apply eq_of_toNat_eq
    rw [hget, hget, entry_clearTop ht, (h32 ht).1]
  rw [htop ht, (h32 ht).2]

/-- The entries of a 12-bit table that a write leaves as they are read. -/
theorem kept_iff_fat12 (ht : vol.fatType = .fat12) (hv : v.toNat < 2 ^ fat12.width)
    {bytes : ByteStore} :
    (c' ≠ c → min (vol.entry (vol.tableSet bytes c v) c') fat12.fatEof.toNat =
      min (vol.entry bytes c') fat12.fatEof.toNat) ↔ EntriesApart vol bytes c c' v := by
  have heof : fat12.fatEof.toNat = 0xff8 := rfl
  have hv : v.toNat < 4096 := hv
  have hval : vol.entry bytes c' = if c'.toNat % 2 = 1 then
      (bytes (vol.entryStart c' + 1)).toNat / 16 + 16 * (bytes (vol.entryStart c' + 2)).toNat
      else (bytes (vol.entryStart c')).toNat + 256 * ((bytes (vol.entryStart c' + 1)).toNat % 16) := by
    unfold entry
    rw [ht]
    rfl
  simp only [heof, EntriesApart, ht]
  by_cases hnext : c.toNat % 2 = 1 ∧ c'.toNat = c.toNat + 1
  · obtain ⟨hodd, hc⟩ := hnext
    have hne : c' ≠ c := fun h => by rw [h] at hc; omega
    rw [entry_tableSet_next bytes v ht hodd hc, hval, if_neg (by omega)]
    simp only [ne_eq, hne, not_false_eq_true, true_imp_iff, hodd, hc]
    omega
  by_cases hprev : c.toNat % 2 = 0 ∧ c.toNat = c'.toNat + 1
  · obtain ⟨heven, hc⟩ := hprev
    have hne : c' ≠ c := fun h => by rw [h] at hc; omega
    rw [entry_tableSet_prev bytes v ht heven hc, hval, if_pos (by omega),
      entryStart_of_even ht heven hc]
    simp only [ne_eq, hne, not_false_eq_true, true_imp_iff, hc]
    omega
  refine iff_of_true (fun hne => ?_) ⟨fun h1 h2 => absurd ⟨h1, h2⟩ hnext,
    fun h1 h2 => absurd ⟨h1, h2⟩ hprev⟩
  rw [entry_tableSet_far bytes v ht hne hnext hprev]

end FatVolume

open FatVolume in
/-- **The law of the allocation table, exactly.** A successful write to the table of a volume keeps
the law with respect to a data cluster if and only if the two entries are apart. -/
theorem fat_table_law_iff (vol : FatVolume) (dev dev' : FatDevice) (c c' v : BitVec 32)
    (hc : vol.IsData c) (hc' : vol.IsData c') (hv : v.toNat < 2 ^ vol.fatType.width)
    (hset : fatSetNextCluster vol.toFatSuperblock c v dev = (.ok (), dev')) :
    TableLaw vol dev dev' c c' v ↔ EntriesApart vol dev.bytes c c' v := by
  rw [tableLaw_iff_entries hc hc' hv hset]
  cases ht : vol.fatType with
  | fat12 =>
    simp only [reduceCtorEq, false_imp_iff, and_true]
    exact kept_iff_fat12 ht (ht ▸ hv)
  | fat16 =>
    simp only [EntriesApart, ht]
    refine iff_of_true ⟨fun hne => ?_, nofun⟩ trivial
    rw [vol.entry_tableSet_of_ne dev.bytes v (by rw [ht]; decide) hne]
  | fat32 => ?_
  simp only [EntriesApart, ht, fatEof, topBits, true_imp_iff, toNat_ofNat, Nat.reducePow,
    Nat.reduceMod]
  constructor
  · rintro ⟨-, hmin, htop⟩
    exact ⟨htop, by omega⟩
  rintro ⟨htop, hc'⟩
  refine ⟨fun hne => ?_, by omega, htop⟩
  rw [vol.entry_tableSet_of_ne dev.bytes v (by rw [ht]; decide) hne]

/-- A volume with one reserved sector of 512 bytes, as `fat_mount` makes it. -/
def smallVolume (t : FatType) (clusters : BitVec 32)
    (h : clusters.toNat + 2 ≤ 2 ^ t.width) : FatVolume where
  fatType := t
  reservedSectors := 1
  sectorSize := 512
  sectorsPerFat := 0
  dataClusters := clusters
  fatCount := 2
  hasTable := by decide
  clusters_le := h
  start_lt := by decide
  tables_apart := .inl rfl

/-- A 12-bit table of zeros in which cluster 2 is made the last one of its chain: cluster 3 stays
free. -/
theorem fat_table_law_end_of_chain :
    let vol := smallVolume .fat12 100 (by decide)
    let set := fatSetNextCluster vol.toFatSuperblock 2 0xfff ⟨fun _ => 0, []⟩
    TableLaw vol ⟨fun _ => 0, []⟩ set.2 2 3 0xfff :=
  (fat_table_law_iff (smallVolume .fat12 100 (by decide)) ⟨fun _ => 0, []⟩ _ 2 3 0xfff
    ⟨by decide, by decide⟩ ⟨by decide, by decide⟩ (by decide) rfl).2
    ⟨fun h => absurd h (by decide), fun _ h => absurd h (by decide)⟩

/-- Some table of a type has a successful write after which the law does not hold. -/
def LawBroken (t : FatType) : Prop :=
  ∃ (vol : FatVolume) (dev dev' : FatDevice) (c c' v : BitVec 32), vol.fatType = t ∧
    vol.IsData c ∧ vol.IsData c' ∧ v.toNat < 2 ^ vol.fatType.width ∧
    fatSetNextCluster vol.toFatSuperblock c v dev = (.ok (), dev') ∧
    ¬ TableLaw vol dev dev' c c' v

/-- **The law fails** in a 12-bit table of zeros, where the entry of cluster 4 changes with that of
cluster 3, and in a 32-bit table with a reserved bit set in the entry of cluster 2, which is read as
an end of chain. -/
theorem fat_table_law_fails : LawBroken .fat12 ∧ LawBroken .fat32 := by
  constructor
  · refine ⟨smallVolume .fat12 100 (by decide), ⟨fun _ => 0, []⟩, _, 3, 4, 0x123, rfl,
      ⟨by decide, by decide⟩, ⟨by decide, by decide⟩, by decide, rfl, fun law => ?_⟩
    exact absurd (law.kept (by decide)) (by decide +kernel)
  refine ⟨smallVolume .fat32 70000 (by decide),
    ⟨fun x => if x = 512 + 2 * 4 + 3 then 0x10 else 0, []⟩, _, 3, 2, 0, rfl,
    ⟨by decide, by decide⟩, ⟨by decide, by decide⟩, by decide, rfl, fun law => ?_⟩
  exact absurd (law.topIgnored rfl) (by decide +kernel)

end Stanix

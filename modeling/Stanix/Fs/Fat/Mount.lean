import Stanix.Fs.Fat.Law

/-!
# Mounting a volume, and the copies of its table

`fat_mount` reads the boot sector, computes the geometry of the volume and fills in a superblock.
Every later write to the allocation table goes to all copies, at places that are computed from the
superblock.

The field `sectors_per_fat` of the superblock, which is the distance of two copies, is computed and
never stored: it keeps the zero of the `memset`. So each write goes `fat_count` times to the first
copy. `fat_copies_iff` says in which runs of writes the copies stay equal.
-/

namespace Stanix

open List ByteStore FatDevice

/-! ## The boot sector -/

/-- A little-endian field of two bytes. -/
def ByteStore.le16 (bytes : ByteStore) (offset : Nat) : BitVec 16 :=
  bytes (offset + 1) ++ bytes offset

/-- A little-endian field of four bytes. -/
def ByteStore.le32 (bytes : ByteStore) (offset : Nat) : BitVec 32 :=
  bytes (offset + 3) ++ bytes (offset + 2) ++ bytes (offset + 1) ++ bytes offset

/-- The fields of `fat_bpb_t` (`fat.h:58`) that `fat_mount` uses. -/
structure FatBpb where
  bytePerSector : BitVec 16
  sectorPerCluster : BitVec 8
  reservedSectors : BitVec 16
  fatCount : BitVec 8
  rootEntiresCount : BitVec 16
  sectorsCount16 : BitVec 16
  sectorsPerFat16 : BitVec 16
  sectorsCount32 : BitVec 32
  sectorsPerFat32 : BitVec 32
  version : BitVec 16
  signature : BitVec 16

/-- Source: `sizeof(fat_bpb_t)`. -/
def fatBpbSize : Nat := 512

namespace FatBpb

/-- The boot sector of a disk. -/
def ofBytes (bytes : ByteStore) : FatBpb where
  bytePerSector := bytes.le16 11
  sectorPerCluster := bytes 13
  reservedSectors := bytes.le16 14
  fatCount := bytes 16
  rootEntiresCount := bytes.le16 17
  sectorsCount16 := bytes.le16 19
  sectorsPerFat16 := bytes.le16 22
  sectorsCount32 := bytes.le32 32
  sectorsPerFat32 := bytes.le32 36
  version := bytes.le16 42
  signature := bytes.le16 510

/-- Source: `root_sectors` (`fat.c:1214`). -/
def rootSectors (bpb : FatBpb) : BitVec 16 :=
  .ofNat 16 ((bpb.rootEntiresCount.toNat * 32 + bpb.bytePerSector.toNat - 1) /
    bpb.bytePerSector.toNat)

/-- Source: `sectors_per_fat` (`fat.c:1215`). -/
def sectorsPerFat (bpb : FatBpb) : BitVec 32 :=
  if bpb.sectorsPerFat16 ≠ 0 then bpb.sectorsPerFat16.setWidth 32 else bpb.sectorsPerFat32

/-- Source: `sectors_count` (`fat.c:1216`). -/
def sectorsCount (bpb : FatBpb) : BitVec 32 :=
  if bpb.sectorsCount16 ≠ 0 then bpb.sectorsCount16.setWidth 32 else bpb.sectorsCount32

/-- The sectors in front of the data (`fat.c:1217`, `fat.c:1248`). -/
def metaSectors (bpb : FatBpb) : BitVec 32 :=
  bpb.reservedSectors.setWidth 32 + bpb.fatCount.setWidth 32 * bpb.sectorsPerFat +
    bpb.rootSectors.setWidth 32

/-- Source: `data_clusters` (`fat.c:1218`). -/
def dataClusters (bpb : FatBpb) : BitVec 32 :=
  (bpb.sectorsCount - bpb.metaSectors) / bpb.sectorPerCluster.setWidth 32

/-- Source: `fat_type` (`fat.c:1220`). -/
def fatType (bpb : FatBpb) : FatType :=
  if bpb.dataClusters < 4085#32 then .fat12
  else if bpb.dataClusters < 65525#32 then .fat16
  else .fat32

end FatBpb

/-! ## Mounting -/

/-- The superblock of a mounted volume: the fields of `fat_superblock_t` (`fat.h:109`) that the table
functions read, and those for the data clusters. -/
structure FatMounted extends FatSuperblock where
  clusterSize : BitVec 32
  dataStart : BitVec 32
  clusterSearchHint : BitVec 32

/-- Source: `fat_mount` (`fat.c:1194`), without the inode of the root. The superblock is zeroed, and
`sectors_per_fat` and `cluster_search_hint` are not set. -/
def fatMount (dev : FatDevice) : Except Errno FatMounted × FatDevice :=
  match dev.vfsRead 0 fatBpbSize with
  | (.error _, _, dev) => (.error .ftype, dev)
  | (.ok n, _, dev) =>
    if n ≠ fatBpbSize then (.error .ftype, dev)
    else
      let bpb := FatBpb.ofBytes dev.bytes
      if bpb.signature ≠ 0xaa55#16 then (.error .ftype, dev)
      else if bpb.bytePerSector < 512#16 ∨ bpb.sectorPerCluster = 0#8 then (.error .ftype, dev)
      else if bpb.fatType = .fat32 ∧ bpb.version ≠ 0#16 then (.error .ftype, dev)
      else
        (.ok {
          fatType := bpb.fatType
          reservedSectors := bpb.reservedSectors
          sectorSize := bpb.bytePerSector
          sectorsPerFat := 0
          clusterSize := bpb.bytePerSector.setWidth 32 * bpb.sectorPerCluster.setWidth 32
          dataStart := bpb.metaSectors * bpb.bytePerSector.setWidth 32
          dataClusters := bpb.dataClusters
          clusterSearchHint := 0
          fatCount := bpb.fatCount }, dev)

open FatBpb

/-- An accepted boot sector determines the fields of the superblock. -/
theorem fatMount_ok {bytes : ByteStore} {sb : FatMounted} (h : (fatMount { bytes }).1 = .ok sb) :
    sb.fatType = (ofBytes bytes).fatType ∧
      sb.reservedSectors = (ofBytes bytes).reservedSectors ∧
      sb.sectorSize = (ofBytes bytes).bytePerSector ∧ sb.sectorsPerFat = 0 ∧
      sb.fatCount = (ofBytes bytes).fatCount ∧ 512 ≤ sb.clusterSize.toNat ∧
      sb.clusterSearchHint = 0 := by
  unfold fatMount vfsRead transfer at h
  dsimp only at h
  rw [if_neg (by simp)] at h
  split at h
  · cases h
  split at h
  · cases h
  next hsize =>
  split at h
  · cases h
  cases h
  refine ⟨rfl, rfl, rfl, rfl, rfl, ?_, rfl⟩
  rw [not_or, BitVec.not_lt] at hsize
  have hpos := Nat.pos_of_ne_zero fun h => hsize.2 (BitVec.eq_of_toNat_eq h)
  have hlt := Nat.mul_lt_mul'' (ofBytes bytes).bytePerSector.isLt
    (ofBytes bytes).sectorPerCluster.isLt
  rw [BitVec.toNat_mul, BitVec.toNat_setWidth, BitVec.toNat_setWidth, ← Nat.mul_mod,
    Nat.mod_eq_of_lt (by omega)]
  exact Nat.mul_le_mul hsize.1 hpos

/-! ## The copies of the table -/

/-- A call of `fat_set_next_cluster`. -/
structure FatSet where
  cluster : BitVec 32
  next : BitVec 32

/-- A call on a mounted volume. -/
def FatSet.step (sb : FatMounted) (dev : FatDevice) (call : FatSet) :
    Exec (Except Errno Unit × FatDevice) :=
  .ok (fatSetNextCluster sb.toFatSuperblock call.cluster call.next dev)

/-- The offset of an entry in a copy as the code computes it, in 32 bits. -/
def FatType.codeOffset (t : FatType) (cluster : BitVec 32) : Nat :=
  match t with
  | .fat12 => (cluster * 3#32 / 2#32).toNat
  | .fat16 => (cluster * 2#32).toNat
  | .fat32 => (cluster * 4#32).toNat

namespace FatBpb

/-- The number of bytes of a copy. -/
def copyBytes (bpb : FatBpb) : Nat := bpb.sectorsPerFat.toNat * bpb.bytePerSector.toNat

/-- Where a copy is on the disk, as the boot sector says. `FatSuperblock.copyStart` is where the code
writes it, with a `sectors_per_fat` that `fat_mount` does not set. -/
def copyStart (bpb : FatBpb) (i : Nat) : Nat :=
  bpb.reservedSectors.toNat * bpb.bytePerSector.toNat + i * bpb.copyBytes

/-- All copies on a disk are equal. -/
def CopiesEqual (bpb : FatBpb) (bytes : ByteStore) : Prop :=
  ∀ i < bpb.fatCount.toNat, ∀ j < bpb.copyBytes,
    bytes (bpb.copyStart i + j) = bytes (bpb.copyStart 0 + j)

/-- The addresses of all copies. -/
def InArea (bpb : FatBpb) (x : Nat) : Prop :=
  bpb.copyStart 0 ≤ x ∧ x < bpb.copyStart bpb.fatCount.toNat

/-- The copies are equal, and outside of them the disk is as it was. -/
structure CopiesKept (bpb : FatBpb) (bytes : ByteStore) (dev : FatDevice) : Prop where
  equal : bpb.CopiesEqual dev.bytes
  outside : ∀ x, ¬bpb.InArea x → dev.bytes x = bytes x

/-- The bytes that are read and written for an entry are inside of a copy. -/
def EntryInTable (bpb : FatBpb) (call : FatSet) : Prop :=
  bpb.fatType.codeOffset call.cluster + bpb.fatType.entryBytes ≤ bpb.copyBytes

/-- Where the entry of a cluster is in the first copy. -/
def entryAt (bpb : FatBpb) (cluster : BitVec 32) : Nat :=
  bpb.copyStart 0 + bpb.fatType.codeOffset cluster

/-- There is at most one copy, or the bytes of the entry are those that the call writes. -/
def WritesOneCopy (bpb : FatBpb) (dev : FatDevice) (call : FatSet) : Prop :=
  bpb.fatCount.toNat ≤ 1 ∨
    dev.bytes.read (bpb.entryAt call.cluster) bpb.fatType.entryBytes =
      bpb.fatType.entrySet call.cluster call.next fun k => dev.bytes (bpb.entryAt call.cluster + k)

end FatBpb

/-! ## One write -/

theorem fatRawSetNextCluster_complete (sb : FatSuperblock) (offset : Nat) (cluster next : BitVec 32)
    (bytes : ByteStore) :
    fatRawSetNextCluster sb offset cluster next { bytes } = (.ok (), {
      bytes := bytes.write (offset + sb.fatType.codeOffset cluster)
        (sb.fatType.entrySet cluster next fun k =>
          bytes (offset + sb.fatType.codeOffset cluster + k)) }) := by
  have hcomplete (at_ : Nat) (ent : List (BitVec 8)) :
      fatWriteEntry { bytes } at_ ent = (.ok (), { bytes := bytes.write at_ ent }) := by
    simp [fatWriteEntry, vfsWrite, transfer]
  unfold fatRawSetNextCluster FatType.codeOffset FatType.entrySet
  cases sb.fatType with
  | fat12 =>
    simp only [vfsRead, transfer, hcomplete]
    rfl
  | fat16 => exact hcomplete ..
  | fat32 => exact hcomplete ..

theorem ByteStore.write_read (bytes : ByteStore) (a n : Nat) :
    bytes.write a (bytes.read a n) = bytes := by
  funext x
  unfold write read
  split
  · rfl
  next hx =>
  grind

theorem ByteStore.write_write (bytes : ByteStore) (a : Nat) (buf : List (BitVec 8)) :
    (bytes.write a buf).write a buf = bytes.write a buf := by
  funext x
  by_cases hin : a ≤ x ∧ x < a + buf.length
  · exact write_congr hin.1 hin.2
  by_cases hlt : x < a
  · exact write_of_lt hlt
  exact write_of_ge (by omega)

/-- The loop over the copies of a superblock whose copies all start in the same place. -/
theorem fatSetCopies_same {sb : FatSuperblock} (hsame : sb.sectorsPerFat = 0)
    (cluster next : BitVec 32) (bytes : ByteStore) (left i : Nat) :
    fatSetCopies sb cluster next (left + 1) i { bytes } = (.ok (), {
      bytes := bytes.write (sb.copyStart 0 + sb.fatType.codeOffset cluster)
        (sb.fatType.entrySet cluster next fun k =>
          bytes (sb.copyStart 0 + sb.fatType.codeOffset cluster + k)) }) := by
  have hstart (i : Nat) : sb.copyStart i = sb.copyStart 0 := by
    simp [FatSuperblock.copyStart, hsame]
  induction left generalizing i bytes with
  | zero =>
    unfold fatSetCopies
    rw [hstart, fatRawSetNextCluster_complete]
    rfl
  | succ left ih => ?_
  unfold fatSetCopies
  rw [hstart, fatRawSetNextCluster_complete]
  dsimp only
  rw [ih]
  -- the bytes of the entry are those of the first write, so the next one writes the same
  have hent := FatVolume.entrySet_idem sb.fatType cluster next
    (b := fun k => bytes (sb.copyStart 0 + sb.fatType.codeOffset cluster + k))
    fun k hk => write_add (m := bytes)
      (a := sb.copyStart 0 + sb.fatType.codeOffset cluster) hk
  rw [hent, write_write]

section Mounted

variable {disk bytes : ByteStore} {sb : FatMounted} {bpb : FatBpb}

/-- **A write on a mounted volume** goes to the first copy, unless there is none. -/
theorem fatSetNextCluster_mounted (hbpb : ofBytes disk = bpb)
    (hmount : (fatMount { bytes := disk }).1 = .ok sb) (call : FatSet) (bytes : ByteStore) :
    fatSetNextCluster sb.toFatSuperblock call.cluster call.next { bytes } = (.ok (), {
      bytes := if bpb.fatCount.toNat = 0 then bytes else
        bytes.write (bpb.entryAt call.cluster) (bpb.fatType.entrySet call.cluster call.next fun k =>
          bytes (bpb.entryAt call.cluster + k)) }) := by
  subst hbpb
  obtain ⟨htype, hreserved, hsize, hzero, hcount, -⟩ := fatMount_ok hmount
  have hstart : sb.copyStart 0 + sb.fatType.codeOffset call.cluster =
      (ofBytes disk).entryAt call.cluster := by
    simp [FatSuperblock.copyStart, entryAt, copyStart, htype, hreserved, hsize]
  unfold fatSetNextCluster
  rw [hcount]
  cases (ofBytes disk).fatCount.toNat with
  | zero => rfl
  | succ left =>
    rw [fatSetCopies_same hzero, hstart, htype]
    rfl

namespace FatBpb

variable {call : FatSet}

theorem EntryInTable.inArea (h : bpb.EntryInTable call) (hcount : bpb.fatCount.toNat ≠ 0) {k : Nat}
    (hk : k < bpb.fatType.entryBytes) : bpb.InArea (bpb.entryAt call.cluster + k) := by
  unfold EntryInTable at h
  have hone : bpb.copyStart 0 + bpb.copyBytes ≤ bpb.copyStart bpb.fatCount.toNat := by
    unfold copyStart
    have := Nat.le_mul_of_pos_left bpb.copyBytes (Nat.pos_of_ne_zero hcount)
    omega
  unfold InArea entryAt
  omega

theorem EntryInTable.write_outside (h : bpb.EntryInTable call) (hcount : bpb.fatCount.toNat ≠ 0)
    {ent : List (BitVec 8)} (hent : ent.length = bpb.fatType.entryBytes) (bytes : ByteStore)
    {x : Nat} (hx : ¬bpb.InArea x) : bytes.write (bpb.entryAt call.cluster) ent x = bytes x := by
  by_cases hlt : x < bpb.entryAt call.cluster
  · exact write_of_lt hlt
  by_cases hge : bpb.entryAt call.cluster + ent.length ≤ x
  · exact write_of_ge hge
  obtain ⟨k, rfl⟩ := Nat.exists_eq_add_of_le (not_lt.1 hlt)
  exact absurd (h.inArea hcount (by omega)) hx

theorem copiesEqual_write_iff (h : bpb.EntryInTable call) (hcount : 1 < bpb.fatCount.toNat)
    {ent : List (BitVec 8)} (hent : ent.length = bpb.fatType.entryBytes)
    (hequal : bpb.CopiesEqual bytes) :
    bpb.CopiesEqual (bytes.write (bpb.entryAt call.cluster) ent) ↔
      bytes.read (bpb.entryAt call.cluster) bpb.fatType.entryBytes = ent := by
  constructor
  · intro hequal'
    refine ext_getElem (by simp [ByteStore.read, hent]) fun k hk hk' => ?_
    have hin : bpb.fatType.codeOffset call.cluster + k < bpb.copyBytes := by
      unfold EntryInTable at h
      omega
    -- the second copy was not written, and agrees with the first one before and after
    have hbefore := hequal 1 hcount _ hin
    have hafter := hequal' 1 hcount _ hin
    rw [ByteStore.write_of_ge (by unfold EntryInTable at h; unfold entryAt copyStart; omega),
      hbefore, ← add_assoc] at hafter
    simp only [ByteStore.read, getElem_map, getElem_range]
    exact hafter.trans (ByteStore.write_add hk')
  intro hread
  rw [← hread, ByteStore.write_read]
  exact hequal

end FatBpb

/-- One call keeps the copies exactly if it meets the condition. -/
theorem fatSet_step_iff (hbpb : ofBytes disk = bpb)
    (hmount : (fatMount { bytes := disk }).1 = .ok sb) {call : FatSet}
    (hcall : bpb.EntryInTable call) (bytes : ByteStore) :
    ∃ bytes', call.step sb { bytes } = .ok (.ok (), { bytes := bytes' }) ∧
      (bpb.CopiesKept disk { bytes } →
        (bpb.CopiesKept disk { bytes := bytes' } ↔ bpb.WritesOneCopy { bytes } call)) := by
  refine ⟨_, congrArg Except.ok (fatSetNextCluster_mounted hbpb hmount call bytes), fun hkept => ?_⟩
  have hlength := FatType.length_entrySet bpb.fatType call.cluster call.next fun k =>
    bytes (bpb.entryAt call.cluster + k)
  by_cases hzero : bpb.fatCount.toNat = 0
  · rw [if_pos hzero]
    exact iff_of_true hkept (.inl (by omega))
  rw [if_neg hzero]
  have houtside : ∀ x, ¬bpb.InArea x →
      bytes.write (bpb.entryAt call.cluster) (bpb.fatType.entrySet call.cluster call.next fun k =>
        bytes (bpb.entryAt call.cluster + k)) x = disk x := fun x hx =>
    (hcall.write_outside hzero hlength bytes hx).trans (hkept.outside x hx)
  by_cases hone : bpb.fatCount.toNat = 1
  · refine iff_of_true ⟨fun i hi j _ => ?_, houtside⟩ (.inl (by omega))
    obtain rfl : i = 0 := by omega
    rfl
  have hiff := copiesEqual_write_iff hcall (by omega) hlength hkept.equal
  constructor
  · exact fun h => .inr (hiff.1 h.equal)
  rintro (hle | hread)
  · omega
  exact ⟨hiff.2 hread, houtside⟩

end Mounted

/-- **The copies of the table.** On a volume that was mounted from a disk with equal copies, in every
run of writes inside of the table, the copies are equal in every state, and nothing outside of them
is written, exactly if each write finds at most one copy or the bytes that it writes. -/
theorem fat_copies_iff {disk : ByteStore} {sb : FatMounted}
    (hmount : (fatMount { bytes := disk }).1 = .ok sb)
    (hequal : (FatBpb.ofBytes disk).CopiesEqual disk) {calls : List FatSet}
    (hcalls : ∀ call ∈ calls, (FatBpb.ofBytes disk).EntryInTable call) :
    RunAll (FatSet.step sb) ((FatBpb.ofBytes disk).CopiesKept disk) { bytes := disk } calls ↔
      CallsAll (FatSet.step sb) (FatBpb.ofBytes disk).WritesOneCopy { bytes := disk } calls := by
  refine runAll_iff (I := fun _ dev => dev.answers = [])
    ?_ rfl ⟨hequal, fun _ _ => rfl⟩
    (.of_mem fun call hcall _ => hcalls call hcall)
  rintro - ⟨bytes, answers⟩ call rfl hcall
  obtain ⟨bytes', hstep, hiff⟩ := fatSet_step_iff rfl hmount hcall bytes
  exact ⟨_, _, hstep, rfl, hiff⟩

/-! ## A small disk -/

/-- A disk of 20 sectors of 512 bytes with a table of 12-bit entries: a boot sector, `fatCount` copies
of one sector each and a sector for the root. All but the boot sector is zero. -/
def bootDisk (fatCount : BitVec 8) : ByteStore := fun x =>
  ([(12, 2), (13, 1), (14, 1), (16, fatCount), (17, 16), (19, 20), (22, 1), (510, 0x55),
    (511, 0xaa)].lookup x).getD 0#8

theorem bootDisk_of_ge (fatCount : BitVec 8) {x : Nat} (h : 512 ≤ x) : bootDisk fatCount x = 0 := by
  have hne (n : Nat) (hn : n < 512) : (x == n) = false := beq_eq_false_iff_ne.2 (by omega)
  simp [bootDisk, lookup_cons, hne]

theorem bootDisk_copiesEqual (fatCount : BitVec 8) :
    (ofBytes (bootDisk fatCount)).CopiesEqual (bootDisk fatCount) := by
  intro i _ j _
  have hstart (i : Nat) : 512 ≤ (ofBytes (bootDisk fatCount)).copyStart i + j := by
    have hfirst : (ofBytes (bootDisk fatCount)).reservedSectors.toNat *
        (ofBytes (bootDisk fatCount)).bytePerSector.toNat = 512 := by
      simp [ofBytes, le16, bootDisk, lookup_cons]
    unfold copyStart
    omega
  rw [bootDisk_of_ge _ (hstart i), bootDisk_of_ge _ (hstart 0)]

/-- With one copy, the end of a chain is written. -/
theorem fat_copies_iff_one :
    ∃ sb, (fatMount { bytes := bootDisk 1 }).1 = .ok sb ∧
      (FatBpb.ofBytes (bootDisk 1)).CopiesEqual (bootDisk 1) ∧
      (∀ call ∈ [FatSet.mk 2 0xff8], (FatBpb.ofBytes (bootDisk 1)).EntryInTable call) ∧
      RunAll (FatSet.step sb) ((FatBpb.ofBytes (bootDisk 1)).CopiesKept (bootDisk 1))
        { bytes := bootDisk 1 } [⟨2, 0xff8⟩] := by
  have hcalls : ∀ call ∈ [FatSet.mk 2 0xff8], (ofBytes (bootDisk 1)).EntryInTable call := by
    unfold FatBpb.EntryInTable
    decide
  refine ⟨_, rfl, bootDisk_copiesEqual 1, hcalls, ?_⟩
  exact (fat_copies_iff rfl (bootDisk_copiesEqual 1) hcalls).2
    (.of_mem fun _ _ _ => .inl (by decide))

/-- With two copies, only the first one is written. -/
theorem fat_copies_differ :
    ∃ sb, (fatMount { bytes := bootDisk 2 }).1 = .ok sb ∧
      (FatBpb.ofBytes (bootDisk 2)).CopiesEqual (bootDisk 2) ∧
      ¬RunAll (FatSet.step sb) ((FatBpb.ofBytes (bootDisk 2)).CopiesKept (bootDisk 2))
        { bytes := bootDisk 2 } [⟨2, 0xff8⟩] := by
  refine ⟨_, rfl, bootDisk_copiesEqual 2, ?_⟩
  rintro ⟨-, r, dev, hstep, hkept⟩
  cases hstep
  have hcopy := hkept.equal 1 (by decide) 3 (by decide)
  exact absurd hcopy (by decide)

end Stanix

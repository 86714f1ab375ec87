import Stanix.Fs.Fat.Clusters
import Stanix.Fs.Fat.Offset

/-!
# The search for free clusters

`fat_allocate_cluster` looks for a free cluster from a hint on and never turns back, so it finds every
free cluster only as long as none is below the hint. That is a part of `FatFs.Holds`, and every call
keeps it, whatever the chains are that it follows: they may be cut, joined or have circles.

The mark that says that no cluster is left is a cluster number as well. On a volume with a data
cluster of that number the search finds the cluster and is taken to have found none
(`fat_allocate_mark`); `fat_allocate_complete` is about the others.
-/

namespace Stanix

open List Function Exec FatPlain Except

/-- A call that takes clusters or gives them back. -/
inductive FatCall
  | grow (inode : FatInode) (prev : BitVec 32) (count : Nat)
  | shrink (inode : FatInode) (current new : Nat)
  | free (cluster : BitVec 32)
  | freeAll (inode : FatInode)

namespace FatCall

/-- One call on a volume. -/
def step (fs : FatFs) : FatCall → Exec (Except Errno Unit × FatFs)
  | grow inode prev count => do
    let (ret, fs, _) ← fs.fatGrow inode prev count
    return (ret, fs)
  | shrink inode current new => do
    let (ret, fs, _) ← fs.fatShrink inode current new
    return (ret, fs)
  | free cluster => return fs.fatFreeCluster cluster
  | freeAll inode => return (.ok (), fs.fatFreeClusters inode)

/-- The cluster numbers in a call have no reserved bits. -/
def Numbers : FatCall → Prop
  | grow _ prev _ => prev.toNat < 2 ^ 28
  | shrink inode _ new => inode.firstCluster.toNat < 2 ^ 28 ∧ new < 2 ^ 28
  | free cluster => cluster.toNat < 2 ^ 28
  | freeAll inode => inode.firstCluster.toNat < 2 ^ 28

end FatCall

namespace FatFs

variable {fs fs' : FatFs} {vol : FatPlain} {table : BitVec 32 → BitVec 32} {c first : BitVec 32}

/-- **The law of allocating**: a cluster that is found is a free data cluster, and none is found only
if no data cluster is free. -/
structure FindsFree (fs : FatFs) : Prop where
  found : fs.fatAllocateCluster.1 ≠ fs.eof →
    fs.superblock.IsData fs.fatAllocateCluster.1 ∧ fs.next fs.fatAllocateCluster.1 = 0#32
  none : fs.fatAllocateCluster.1 = fs.eof → ∀ c, fs.superblock.IsData c → fs.next c ≠ 0#32

theorem Holds.findsFree (h : fs.Holds vol table) : fs.FindsFree := by
  have hdata (c : BitVec 32) : fs.superblock.IsData c ↔ vol.IsData c := by
    rw [h.superblock]
  rcases fatAllocateCluster_spec h with ⟨c, hc, hfree, -, halloc⟩ | ⟨hused, halloc⟩
  · have hne : c ≠ fs.eof := h.eof ▸ ne_eof hc
    rw [← h.next c hc] at hfree
    constructor <;> rw [halloc]
    · exact fun _ => ⟨(hdata c).2 hc, hfree⟩
    exact fun heq => absurd heq hne
  constructor <;> rw [halloc]
  · exact fun hne => absurd rfl hne
  intro _ c hc
  rw [h.next c ((hdata c).1 hc)]
  exact hused c ((hdata c).1 hc)

/-! ## Calls -/

theorem next_lt (fs : FatFs) (c : BitVec 32) : (fs.next c).toNat < 2 ^ 28 := by
  have hcapped (e m : BitVec 16) (hm : m.toNat < 2 ^ 28) :
      (if e ≥ m then m.setWidth 32 else e.setWidth 32).toNat < 2 ^ 28 := by
    split <;> bv_omega
  unfold next fatGetNextCluster
  cases fs.superblock.fatType with
  | fat12 => exact hcapped _ 0xff8#16 (by decide)
  | fat16 => exact hcapped _ 0xfff8#16 (by decide)
  | fat32 =>
    dsimp only
    split
    · decide
    exact Nat.and_lt_two_pow _ (by decide)

theorem walk_lt (number : Nat) (hc : c.toNat < 2 ^ 28) : (fs.walk number c).toNat < 2 ^ 28 := by
  induction number generalizing c with
  | zero => exact hc
  | succ number ih =>
    unfold walk
    split
    · exact hc
    exact ih (fs.next_lt c)

variable (h : fs.Holds vol table)

include h

theorem Holds.freeAny (hc : c.toNat < 2 ^ 28) (iters : Nat) :
    ∃ table', (FatFs.freeLoop iters fs c).Holds vol table' := by
  induction iters generalizing fs table c with
  | zero => exact ⟨table, h⟩
  | succ iters ih =>
    unfold FatFs.freeLoop
    split
    · exact ih (h.fatFreeCluster hc) (fs.next_lt c)
    exact ⟨table, h⟩

theorem Holds.growAny (hc : c.toNat ≤ vol.fatType.fatEof.toNat) (hne : c ≠ 0#32) (count : Nat) :
    ∃ table', (FatFs.growLoop count fs c).2.Holds vol table' ∧
      ∀ c', (FatFs.growLoop count fs c).1 = .ok c' →
        c'.toNat ≤ vol.fatType.fatEof.toNat ∧ c' ≠ 0#32 := by
  induction count generalizing fs table c with
  | zero => exact ⟨table, h, fun c' hc' => ok.inj hc' ▸ ⟨hc, hne⟩⟩
  | succ count ih => ?_
  unfold FatFs.growLoop
  rcases fatAllocateCluster_spec h with ⟨d, hd, -, hbefore, halloc⟩ | ⟨hused, halloc⟩
  · rw [halloc, if_neg (by rw [h.eof]; exact ne_eof hd)]
    refine ih (h.allocated hd hbefore hc hne) ?_ (ne_zero hd)
    exact hd.2.le.trans vol.clusters_eof
  rw [halloc, if_pos rfl]
  refine ⟨table, { h with hint := fun c' hc' _ => hused c' hc' }, fun c' hc' => ?_⟩
  cases hc'

theorem Holds.setCluster (hc : c.toNat < 2 ^ 28) (hfirst : first.toNat ≤ vol.fatType.fatEof.toNat)
    (hne : first ≠ 0#32) (inode : FatInode) :
    ∃ table', (fs.fatSetCluster inode c first).2.1.Holds vol table' := by
  unfold fatSetCluster
  split
  · exact ⟨table, h⟩
  split
  · exact ⟨table, h⟩
  exact ⟨_, h.setNext hc hfirst hne⟩

/-- **One call** keeps the free clusters in reach. -/
theorem Holds.call {call : FatCall} {ret : Except Errno Unit} (hcall : call.Numbers)
    (hstep : call.step fs = .ok (ret, fs')) : ∃ table', fs'.Holds vol table' := by
  have hmark := fatEof_ne_zero vol.fatType
  cases call with
  | grow inode prev count =>
    obtain ⟨⟨ret', fs1, inode'⟩, hgrow, hstep⟩ := bind_eq_ok.1 hstep
    cases hstep
    obtain ⟨-, -, hgrow⟩ := bind_eq_ok.1 hgrow
    obtain ⟨table', hholds, hok⟩ := h.growAny (h.eof ▸ le_rfl) (h.eof ▸ hmark) count
    split at hgrow
    · next hloop =>
      cases hgrow
      rw [hloop] at hholds
      exact ⟨table', hholds⟩
    next cluster fs2 hloop =>
    rw [hloop] at hholds hok
    obtain ⟨hle, hne⟩ := hok cluster rfl
    have hset := hholds.setCluster hcall hle hne inode
    rwa [ok.inj hgrow] at hset
  | shrink inode current new =>
    obtain ⟨⟨ret', fs1, inode'⟩, hshrink, hstep⟩ := bind_eq_ok.1 hstep
    cases hstep
    obtain ⟨-, -, hshrink⟩ := bind_eq_ok.1 hshrink
    obtain ⟨table', hholds⟩ := h.freeAny (c := fs.fatGetCluster inode (.ofNat 32 new))
      (walk_lt _ hcall.1) (current - new)
    rw [← shrinkLoop_eq] at hholds
    have hnew : (BitVec.ofNat 32 new).toNat < 2 ^ 28 := (Nat.mod_le ..).trans_lt hcall.2
    have hset := hholds.setCluster hnew (le_rfl) hmark inode
    rwa [← hholds.eof, ok.inj hshrink] at hset
  | free cluster =>
    cases hstep
    exact ⟨_, h.fatFreeCluster hcall⟩
  | freeAll inode =>
    cases hstep
    exact h.freeAny hcall 10000

end FatFs

/-- **Allocating is complete.** On a mounted volume with entries of 16 or 32 bits whose clusters are
numbered below the end-of-chain mark, in every run of calls with cluster numbers without reserved
bits, the search finds a free cluster whenever there is one. -/
theorem fat_allocate_complete {disk : ByteStore} {sb : FatMounted}
    (hmount : (fatMount { bytes := disk }).1 = .ok sb) (hplain : sb.fatType ≠ .fat12)
    (hcopies : 0 < sb.fatCount.toNat)
    (hclusters : sb.dataClusters.toNat + 2 ≤ sb.fatType.fatEof.toNat)
    (hstart : sb.reservedSectors.toNat * sb.sectorSize.toNat < 2 ^ 31) {calls : List FatCall}
    (hcalls : ∀ call ∈ calls, call.Numbers) :
    StatesAll FatCall.step FatFs.FindsFree ⟨sb, { bytes := disk }⟩ calls := by
  have hzero := (fatMount_ok hmount).2.2.2.1
  have hhint := (fatMount_ok hmount).2.2.2.2.2.2
  let vol : FatPlain := { sb.toFatSuperblock with
    hasTable := hcopies
    clusters_le := hclusters.trans (FatFs.fatEof_lt _).le
    start_lt := hstart
    tables_apart := .inl hzero
    plain := hplain
    mounted := hzero
    clusters_eof := hclusters }
  refine statesAll_of_invariant (I := fun fs => ∃ table, fs.Holds vol table)
    (fun fs ⟨table, h⟩ => h.findsFree)
    (fun fs call ret fs' ⟨table, h⟩ hcall hstep => h.call hcall hstep) ?_
    (.of_mem fun call hcall _ => hcalls call hcall)
  exact ⟨_, rfl, rfl, fun _ _ => rfl, fun c _ hlt => absurd hlt (by simp [hhint])⟩

/-- A cluster is given back, and two are taken. -/
theorem fat_allocate_complete_large :
    ∃ sb, (fatMount { bytes := largeDisk }).1 = .ok sb ∧
      StatesAll FatCall.step FatFs.FindsFree ⟨sb, { bytes := largeDisk }⟩
        [.free 7, .grow ⟨0, 0⟩ 0 2] := by
  have hmount : (fatMount { bytes := largeDisk }).1 = .ok _ := rfl
  exact ⟨_, hmount, fat_allocate_complete hmount (by decide) (by decide) (by decide) (by decide)
    (by simp [FatCall.Numbers])⟩

/-! ## A data cluster with the number of the mark -/

theorem FatFs.findFree_first {fs : FatFs} {c : BitVec 32} (hfree : fs.next c = 0#32)
    (hc : c < fs.superblock.dataClusters + 2#32) (fuel : Nat) {start : BitVec 32} (hle : start ≤ c)
    (hused : ∀ d, start ≤ d → d < c → fs.next d ≠ 0#32) (hfuel : c.toNat < start.toNat + fuel) :
    fs.findFree fuel start = some c := by
  induction fuel generalizing start with
  | zero => bv_omega
  | succ fuel ih => ?_
  unfold findFree
  rw [if_pos (by bv_omega)]
  by_cases heq : start = c
  · rw [heq, if_pos hfree]
  rw [if_neg (hused start (by bv_omega) (by bv_omega))]
  exact ih (by bv_omega) (fun d hd => hused d (by bv_omega)) (by bv_omega)

theorem FatFs.fatAllocateCluster_first {fs : FatFs} {c : BitVec 32}
    (hhint : fs.superblock.clusterSearchHint = 0) (hc : fs.superblock.IsData c)
    (hlt : fs.superblock.dataClusters.toNat < 2 ^ 31) (hfree : fs.next c = 0#32)
    (hused : ∀ d, 2#32 ≤ d → d < c → fs.next d ≠ 0#32) : fs.fatAllocateCluster.1 = c := by
  obtain ⟨hge, hc⟩ := hc
  unfold fatAllocateCluster
  dsimp only
  rw [hhint, if_pos (.inr (by decide)), findFree_first hfree (by bv_omega) _ (by bv_omega) hused]
  bv_omega

/-- A disk of 268435455 clusters of 512 bytes with 32-bit entries, of which that of cluster number
`0x0ffffff8` is free and all others are not. -/
def wideDisk : ByteStore := fun x =>
  if x < 512 then
    ([(12, 2), (13, 1), (14, 1), (16, 1), (32, 1), (34, 32), (35, 16), (36, 1), (38, 32), (510, 0x55),
      (511, 0xaa)].lookup x).getD 0#8
  else if x / 4 = 0x10000078 then 0 else 1

/-- The disk, mounted. -/
def wideVolume : FatFs where
  superblock :=
    { fatType := .fat32, reservedSectors := 1, sectorSize := 512, sectorsPerFat := 0,
      dataClusters := 0x0fffffff, fatCount := 1, clusterSize := 512, dataStart := 0x40000400,
      clusterSearchHint := 0 }
  dev := { bytes := wideDisk }

theorem wideVolume_used {d : BitVec 32} (hd : d < 0x0ffffff8#32) : wideVolume.next d ≠ 0#32 := by
  have hoff : (512 + (d * 4#32).toNat) % 2 ^ 32 = 512 + 4 * d.toNat := by bv_omega
  have hbyte (i : Nat) (hi : i < 4) : wideDisk (512 + 4 * d.toNat + i) = 1#8 := by
    have hne : (512 + 4 * d.toNat + i) / 4 ≠ 0x10000078 := by bv_omega
    rw [wideDisk, if_neg (by omega), if_neg hne]
    rfl
  unfold FatFs.next fatGetNextCluster
  dsimp only [wideVolume]
  rw [show (1 : BitVec 16).toNat * (512 : BitVec 16).toNat = 512 from rfl, hoff, hbyte 3 (by decide),
    hbyte 2 (by decide), hbyte 1 (by decide), ← add_zero (512 + _), hbyte 0 (by decide)]
  decide

/-- **A free cluster that is not found.** On the disk with the wide table the search returns the mark,
though the data cluster of that number is free. -/
theorem fat_allocate_mark :
    (fatMount { bytes := wideDisk }).1 = .ok wideVolume.superblock ∧
      wideVolume.superblock.dataClusters.toNat < 2 ^ 28 ∧ wideVolume.superblock.IsData 0x0ffffff8 ∧
      wideVolume.next 0x0ffffff8 = 0#32 ∧ wideVolume.fatAllocateCluster.1 = wideVolume.eof := by
  refine ⟨rfl, by decide, by decide, by decide, ?_⟩
  exact FatFs.fatAllocateCluster_first rfl (by decide) (by decide) (by decide)
    fun d _ hd => wideVolume_used hd

end Stanix

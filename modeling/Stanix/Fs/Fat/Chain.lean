import Stanix.Fs.Fat.Mount
import Stanix.Mem.Page

/-!
# The clusters of a file

The functions of `modules/fs/fat/fat.c` that work on the chain of clusters of a file: the first
cluster is in the inode, and the allocation table gives the one that follows. A file grows by clusters
that are free in the table, found with a search that starts at a hint in the superblock, and shrinks
by giving clusters back.

The page cache of the file, which `fat_truncate` also cuts, and the mutex of the superblock are left
out. The size of a cluster is not zero, as `fat_mount` checks.
-/

namespace Stanix

/-- A mounted volume: the superblock and the device. -/
structure FatFs where
  superblock : FatMounted
  dev : FatDevice

/-- The fields of `fat_inode_t` (`fat.h:124`) that say where the data of a file is. -/
structure FatInode where
  firstCluster : BitVec 32
  fileSize : BitVec 32

namespace FatFs

/-- `fat_get_next_cluster` on the volume. -/
def next (fs : FatFs) (cluster : BitVec 32) : BitVec 32 :=
  fatGetNextCluster fs.superblock.toFatSuperblock fs.dev.bytes cluster

/-- `fat_eof` of the volume. -/
def eof (fs : FatFs) : BitVec 32 := fs.superblock.fatType.fatEof

/-- `fat_set_next_cluster` on the volume. -/
def setNext (fs : FatFs) (cluster next : BitVec 32) : Except Errno Unit × FatFs :=
  let r := fatSetNextCluster fs.superblock.toFatSuperblock cluster next fs.dev
  (r.1, { fs with dev := r.2 })

/-- A new value of `cluster_search_hint`. -/
def setHint (fs : FatFs) (hint : BitVec 32) : FatFs :=
  { fs with superblock := { fs.superblock with clusterSearchHint := hint } }

/-! ## Single clusters -/

/-- The loop of `fat_allocate_cluster` (`fat.c:155`): the first free cluster from `cluster` on. The
fuel is the number of rounds. -/
def findFree (fs : FatFs) : Nat → BitVec 32 → Option (BitVec 32)
  | 0, _ => none
  | fuel + 1, cluster =>
    if cluster < fs.superblock.dataClusters + 2#32 then
      if fs.next cluster = 0#32 then some cluster else fs.findFree fuel (cluster + 1#32)
    else none

/-- Source: `fat_allocate_cluster` (`fat.c:149`). -/
def fatAllocateCluster (fs : FatFs) : BitVec 32 × FatFs :=
  let hint := fs.superblock.clusterSearchHint
  let start := if fs.superblock.dataClusters + 2#32 < hint ∨ hint < 2#32 then 2#32 else hint
  match fs.findFree (fs.superblock.dataClusters + 2#32).toNat start with
  | some cluster => (cluster, fs.setHint (cluster + 1#32))
  | none => (fs.eof, fs.setHint (fs.superblock.dataClusters + 2#32))

/-- Source: `fat_free_cluster` (`fat.c:169`). -/
def fatFreeCluster (fs : FatFs) (cluster : BitVec 32) : Except Errno Unit × FatFs :=
  let fs := if cluster < fs.superblock.clusterSearchHint then fs.setHint cluster else fs
  fs.setNext cluster 0#32

/-- The loop of `fat_get_cluster` (`fat.c:181`). -/
def walk (fs : FatFs) : Nat → BitVec 32 → BitVec 32
  | 0, cluster => cluster
  | number + 1, cluster =>
    if cluster = fs.eof ∨ cluster = 0#32 then cluster else fs.walk number (fs.next cluster)

/-- Source: `fat_get_cluster` (`fat.c:179`). -/
def fatGetCluster (fs : FatFs) (inode : FatInode) (number : BitVec 32) : BitVec 32 :=
  fs.walk number.toNat inode.firstCluster

/-- Source: `fat_set_cluster` (`fat.c:188`). -/
def fatSetCluster (fs : FatFs) (inode : FatInode) (prev cluster : BitVec 32) :
    Except Errno Unit × FatFs × FatInode :=
  if prev = 0#32 then (.ok (), fs, { inode with firstCluster := cluster })
  else if prev = fs.eof then (.error .io, fs, inode)
  else
    let r := fs.setNext prev cluster
    (r.1, r.2, inode)

/-! ## Chains -/

/-- The loop of `fat_shrink` (`fat.c:206`), with the clusters that are to be freed left. -/
def shrinkLoop : Nat → FatFs → BitVec 32 → FatFs
  | 0, fs, _ => fs
  | left + 1, fs, cluster =>
    if cluster = fs.eof ∨ cluster = 0#32 then fs
    else shrinkLoop left (fs.fatFreeCluster cluster).2 (fs.next cluster)

/-- Source: `fat_shrink` (`fat.c:201`). The number of clusters that stay is given to
`fat_set_cluster` as the cluster whose entry is to be changed. -/
def fatShrink (fs : FatFs) (inode : FatInode) (current new : Nat) :
    Exec (Except Errno Unit × FatFs × FatInode) := do
  Exec.assert (new < current)
  let cluster := fs.fatGetCluster inode (.ofNat 32 new)
  let fs := shrinkLoop (current - new) fs cluster
  return fs.fatSetCluster inode (.ofNat 32 new) fs.eof

/-- The loop of `fat_grow` (`fat.c:230`): new clusters in front of the chain from `cluster` on. -/
def growLoop : Nat → FatFs → BitVec 32 → Except Errno (BitVec 32) × FatFs
  | 0, fs, cluster => (.ok cluster, fs)
  | count + 1, fs, cluster =>
    let r := fs.fatAllocateCluster
    if r.1 = fs.eof then (.error .nospc, r.2)
    else growLoop count (r.2.setNext r.1 cluster).2 r.1

/-- Source: `fat_grow` (`fat.c:224`). -/
def fatGrow (fs : FatFs) (inode : FatInode) (prev : BitVec 32) (count : Nat) :
    Exec (Except Errno Unit × FatFs × FatInode) := do
  Exec.assert (count > 0)
  match growLoop count fs fs.eof with
  | (.error e, fs) => return (.error e, fs, inode)
  | (.ok cluster, fs) => return fs.fatSetCluster inode prev cluster

/-- The loop of `fat_free_clusters` (`fat.c:254`), with the rounds left. -/
def freeLoop : Nat → FatFs → BitVec 32 → FatFs
  | 0, fs, _ => fs
  | iters + 1, fs, cluster =>
    if cluster ≠ fs.eof ∧ cluster ≠ 0#32 then
      freeLoop iters (fs.fatFreeCluster cluster).2 (fs.next cluster)
    else fs

/-- Source: `fat_free_clusters` (`fat.c:249`). -/
def fatFreeClusters (fs : FatFs) (inode : FatInode) : FatFs :=
  freeLoop 10000 fs inode.firstCluster

/-! ## Truncating -/

/-- The loop of `fat_truncate` (`fat.c:1101`), with the rounds left: the number of clusters and the
last one. -/
def countLoop (fs : FatFs) : Nat → Nat → BitVec 32 → BitVec 32 → Nat × BitVec 32
  | 0, i, last, _ => (i, last)
  | left + 1, i, last, cluster =>
    if cluster = fs.eof then (i, last)
    else fs.countLoop left (i + 1) cluster (fs.next cluster)

/-- Source: `fat_truncate` (`fat.c:1093`). What `fat_shrink` and `fat_grow` return is not looked
at. -/
def fatTruncate (fs : FatFs) (inode : FatInode) (size : Nat) :
    Exec (Except Errno Unit × FatFs × FatInode) := do
  let clusterSize := fs.superblock.clusterSize
  let current := ((inode.fileSize + clusterSize - 1#32) / clusterSize).toNat
  let new := wrap (size + clusterSize.toNat - 1) / clusterSize.toNat
  let (current, last) := fs.countLoop current 0 0#32 inode.firstCluster
  let (_, fs, inode) ←
    if new < current then fs.fatShrink inode current new
    else if new > current then fs.fatGrow inode last (new - current)
    else pure (.ok (), fs, inode)
  return (.ok (), fs, { inode with fileSize := .ofNat 32 size })

end FatFs

end Stanix

import Stanix.Base.Chain
import Stanix.Fs.Fat.Chain

/-!
# Clusters of a volume with 16-bit or 32-bit entries

On such a volume the entries of the table are apart, so that the table is a function from clusters to
clusters and a write changes it in one place. `FatFs.Holds` relates a mounted volume to that function;
the theorems here say what the functions on single clusters and the loops over chains do to it. The
search for a free cluster finds one whenever there is one, because no free cluster is below the hint.
-/

namespace Stanix

open List Function BitVec FatFs FatType FatVolume

/-- A volume as `fat_mount` makes it, with entries of 16 or of 32 bits and clusters whose numbers are
below the end-of-chain mark. -/
structure FatPlain extends FatVolume where
  plain : fatType ≠ .fat12
  mounted : sectorsPerFat = 0
  clusters_eof : dataClusters.toNat + 2 ≤ fatType.fatEof.toNat

namespace FatFs

/-- A mounted volume with the table `table`: the device is complete, the entries of the data clusters
are those of the table, and no free cluster is below the hint. -/
structure Holds (fs : FatFs) (vol : FatPlain) (table : BitVec 32 → BitVec 32) : Prop where
  superblock : fs.superblock.toFatSuperblock = vol.toFatSuperblock
  answers : fs.dev.answers = []
  next : ∀ c, vol.IsData c → fs.next c = table c
  hint : ∀ c, vol.IsData c → c < fs.superblock.clusterSearchHint → table c ≠ 0

variable {fs fs' : FatFs} {vol : FatPlain} {table : BitVec 32 → BitVec 32} {c v : BitVec 32}

theorem Holds.eof (h : fs.Holds vol table) : fs.eof = vol.fatType.fatEof :=
  congrArg (·.fatType.fatEof) h.superblock

theorem Holds.dataClusters (h : fs.Holds vol table) :
    fs.superblock.dataClusters = vol.dataClusters :=
  congrArg (·.dataClusters) h.superblock

/-! ## Writing an entry -/

theorem fatEof_lt (t : FatType) : t.fatEof.toNat < 2 ^ t.width := by
  cases t <;> decide

theorem fatEof_lt_pow (t : FatType) : t.fatEof.toNat < 2 ^ 28 := by
  cases t <;> decide

theorem codeOffset_eq (t : FatType) (hc : c.toNat < 2 ^ 28) :
    t.codeOffset c = t.entryOffset c.toNat := by
  cases t with
  | fat12 =>
    simp only [codeOffset, entryOffset, toNat_udiv, toNat_mul,
      toNat_ofNat, Nat.reducePow, Nat.reduceMod]
    omega
  | fat16 | fat32 =>
    simp only [codeOffset, entryOffset]
    bv_omega

section

variable (hsb : fs.superblock.toFatSuperblock = vol.toFatSuperblock)
  (hanswers : fs.dev.answers = [])
include hsb hanswers

/-- A write of an entry makes the table of `FatVolume.tableSet`. -/
theorem setNext_bytes (hc : c.toNat < 2 ^ 28) :
    fs.setNext c v = (.ok (), { fs with dev := { bytes := vol.tableSet fs.dev.bytes c v } }) := by
  have hstart : vol.copyStart 0 + vol.fatType.codeOffset c = vol.entryStart c := by
    rw [codeOffset_eq _ hc, entryStart_eq]
  have hdev : fs.dev = { bytes := fs.dev.bytes } := by rw [← hanswers]
  obtain ⟨left, hleft⟩ := Nat.exists_eq_succ_of_ne_zero (pos_iff_ne_zero.1 vol.hasTable)
  have hset : fatSetNextCluster vol.toFatSuperblock c v { bytes := fs.dev.bytes } =
      (.ok (), { bytes := vol.tableSet fs.dev.bytes c v }) := by
    unfold fatSetNextCluster
    rw [hleft, fatSetCopies_same vol.mounted, hstart]
    rfl
  unfold setNext
  rw [hsb, hdev, hset]

/-- **Setting an entry** changes the table in one place. A cluster that becomes free must not be below
the hint. -/
theorem setNext_holds (hnext : ∀ c, vol.IsData c → fs.next c = table c)
    (hc : c.toNat < 2 ^ 28) (hv : v.toNat ≤ vol.fatType.fatEof.toNat)
    (hhint : ∀ c', vol.IsData c' → c' < fs.superblock.clusterSearchHint → update table c v c' ≠ 0) :
    (fs.setNext c v).2.Holds vol (update table c v) := by
  rw [setNext_bytes hsb hanswers hc]
  refine ⟨hsb, rfl, fun c' hc' => ?_, hhint⟩
  have hold := toNat_fatGetNextCluster hc' fs.dev.bytes
  have hnew := toNat_fatGetNextCluster hc' (vol.tableSet fs.dev.bytes c v)
  unfold next
  rw [hsb]
  apply eq_of_toNat_eq
  by_cases heq : c' = c
  · subst heq
    have := fatEof_lt vol.fatType
    rw [hnew, vol.entry_tableSet_self, update_self, Nat.mod_eq_of_lt (by omega)]
    omega
  rw [hnew, vol.entry_tableSet_of_ne fs.dev.bytes v vol.plain heq, ← hold,
    update_of_ne heq, ← hnext c' hc', next, hsb]

end

theorem Holds.setNext (h : fs.Holds vol table) (hc : c.toNat < 2 ^ 28)
    (hv : v.toNat ≤ vol.fatType.fatEof.toNat) (hne : v ≠ 0#32) :
    (fs.setNext c v).2.Holds vol (update table c v) := by
  refine setNext_holds h.superblock h.answers h.next hc hv fun c' hc' hlt => ?_
  rw [update_apply]
  split
  · exact hne
  exact h.hint c' hc' hlt

/-! ## Finding a free cluster -/

/-- The search goes through the clusters in order. -/
theorem findFree_spec (h : fs.superblock.dataClusters = vol.dataClusters)
    (hnext : ∀ c, vol.IsData c → fs.next c = table c) (fuel : Nat) {start : BitVec 32}
    (hstart : 2 ≤ start.toNat) (hfuel : vol.dataClusters.toNat + 2 ≤ start.toNat + fuel) :
    (∀ c, fs.findFree fuel start = some c → vol.IsData c ∧ table c = 0) ∧
      ∀ c', vol.IsData c' → start.toNat ≤ c'.toNat →
        (∀ c, fs.findFree fuel start = some c → c'.toNat < c.toNat) → table c' ≠ 0 := by
  have hbound := vol.clusters_eof
  induction fuel generalizing start with
  | zero => exact ⟨nofun, fun c' hc' hle _ => absurd hc'.2 (by omega)⟩
  | succ fuel ih => ?_
  unfold findFree
  rw [h]
  by_cases hlt : start < vol.dataClusters + 2#32
  · have hdata : vol.IsData start := ⟨hstart, by bv_omega⟩
    rw [if_pos hlt, hnext start hdata]
    by_cases hfree : table start = 0#32
    · grind
    rw [if_neg hfree]
    obtain ⟨hfound, hbefore⟩ := @ih (start + 1#32) (by bv_omega) (by bv_omega)
    refine ⟨hfound, fun c' hc' hle hlt' => ?_⟩
    -- the cluster that was looked at is not free
    rcases Nat.eq_or_lt_of_le hle with heq | hgt
    · rwa [← eq_of_toNat_eq heq]
    exact hbefore c' hc' (by bv_omega) hlt'
  rw [if_neg hlt]
  exact ⟨nofun, fun c' hc' hle _ => absurd hc'.2 (by bv_omega)⟩

/-- **Allocating a cluster** gives the first free one, and the mark if there is none. Only the hint
changes. -/
theorem fatAllocateCluster_spec (h : fs.Holds vol table) :
    (∃ c, vol.IsData c ∧ table c = 0 ∧ (∀ c', vol.IsData c' → c'.toNat < c.toNat → table c' ≠ 0) ∧
      fs.fatAllocateCluster = (c, fs.setHint (c + 1#32))) ∨
    ((∀ c', vol.IsData c' → table c' ≠ 0) ∧
      fs.fatAllocateCluster = (fs.eof, fs.setHint (fs.superblock.dataClusters + 2#32))) := by
  have hdc := h.dataClusters
  -- the clusters in front of the start of the search are not free
  obtain ⟨start, hstart, hge, hbelow⟩ : ∃ start : BitVec 32,
      (if fs.superblock.dataClusters + 2#32 < fs.superblock.clusterSearchHint ∨
          fs.superblock.clusterSearchHint < 2#32 then 2#32
        else fs.superblock.clusterSearchHint) = start ∧ 2 ≤ start.toNat ∧
      ∀ c, vol.IsData c → c.toNat < start.toNat → table c ≠ 0 := by
    split
    · exact ⟨_, rfl, by decide, fun c hc hlt => absurd hc.1 (not_le.2 hlt)⟩
    next hhint =>
    exact ⟨_, rfl, by bv_omega, fun c hc hlt => h.hint c hc (lt_def.2 hlt)⟩
  have hlimit : vol.dataClusters.toNat + 2 ≤ start.toNat + (vol.dataClusters + 2#32).toNat := by
    have hbound := vol.clusters_eof
    bv_omega
  unfold fatAllocateCluster
  dsimp only
  rw [hstart, hdc]
  obtain ⟨hfound, hbefore⟩ := findFree_spec hdc h.next _ hge hlimit
  have hused (c' : BitVec 32) (hc' : vol.IsData c') (hlt : ∀ c, fs.findFree
      (vol.dataClusters + 2#32).toNat start = some c → c'.toNat < c.toNat) : table c' ≠ 0 := by
    rcases lt_or_ge c'.toNat start.toNat with hlow | hhigh
    · exact hbelow c' hc' hlow
    exact hbefore c' hc' hhigh hlt
  cases hfind : fs.findFree (vol.dataClusters + 2#32).toNat start with
  | some c =>
    obtain ⟨hc, hzero⟩ := hfound c hfind
    refine .inl ⟨c, hc, hzero, fun c' hc' hlt => hused c' hc' fun d hd => ?_, rfl⟩
    rw [hfind] at hd
    cases hd
    exact hlt
  | none => exact .inr ⟨fun c' hc' => hused c' hc' (by rw [hfind]; exact nofun), rfl⟩

end FatFs

/-! ## Chains -/

/-- A chain of data clusters that ends with the mark. -/
structure FatPlain.IsChain (vol : FatPlain) (table : BitVec 32 → BitVec 32) (first : BitVec 32)
    (l : List (BitVec 32)) : Prop where
  links : Chain.Links table vol.fatType.fatEof first l
  data : ∀ c ∈ l, vol.IsData c

/-- There are `n` free clusters. -/
def FatPlain.EnoughFree (vol : FatPlain) (table : BitVec 32 → BitVec 32) (n : Nat) : Prop :=
  ∃ free : List (BitVec 32), free.Nodup ∧ free.length = n ∧ ∀ c ∈ free, vol.IsData c ∧ table c = 0

namespace FatPlain

variable {vol : FatPlain} {table : BitVec 32 → BitVec 32} {first c d v : BitVec 32}
  {l : List (BitVec 32)} {n : Nat}

theorem ne_eof (h : vol.IsData c) : c ≠ vol.fatType.fatEof := by
  rintro rfl
  have := vol.clusters_eof
  have := h.2
  omega

theorem ne_zero (h : vol.IsData c) : c ≠ 0#32 := by
  rintro rfl
  exact absurd h.1 (by decide)

theorem fatEof_ne_zero (t : FatType) : t.fatEof ≠ 0#32 := by
  cases t <;> decide

theorem IsChain.first_le (h : vol.IsChain table first l) :
    first.toNat ≤ vol.fatType.fatEof.toNat ∧ first ≠ 0#32 := by
  cases l with
  | nil =>
    rw [show first = vol.fatType.fatEof from h.links.path]
    exact ⟨le_rfl, fatEof_ne_zero _⟩
  | cons c l => ?_
  obtain ⟨rfl, -⟩ := Chain.Links.cons_iff.1 h.links
  have hdata := h.data first mem_cons_self
  have := hdata.2
  have := vol.clusters_eof
  exact ⟨by omega, ne_zero hdata⟩

theorem IsChain.cons_iff :
    vol.IsChain table first (c :: l) ↔ first = c ∧ vol.IsData c ∧ vol.IsChain table (table c) l := by
  constructor
  · intro h
    obtain ⟨hfirst, -, hlinks⟩ := Chain.Links.cons_iff.1 h.links
    exact ⟨hfirst, h.data c mem_cons_self, hlinks, fun d hd => h.data d (mem_cons_of_mem c hd)⟩
  rintro ⟨rfl, hdata, hrest⟩
  exact ⟨Chain.Links.cons_iff.2 ⟨rfl, ne_eof hdata, hrest.links⟩, forall_mem_cons.2 ⟨hdata, hrest.data⟩⟩

theorem IsChain.first_eq (h : vol.IsChain table first l) : first = l.headD vol.fatType.fatEof := by
  cases l with
  | nil => exact h.links.path
  | cons c l => exact (IsChain.cons_iff.1 h).1

theorem IsChain.ne_zero_of_mem (h : vol.IsChain table first l) (hc : c ∈ l) : table c ≠ 0#32 := by
  induction l generalizing first with
  | nil => cases hc
  | cons d l ih =>
    obtain ⟨-, -, hrest⟩ := IsChain.cons_iff.1 h
    rcases mem_cons.1 hc with rfl | hmem
    · exact hrest.first_le.2
    exact ih hrest hmem

theorem IsChain.congr {table' : BitVec 32 → BitVec 32} (h : vol.IsChain table first l)
    (hsame : ∀ c ∈ l, table' c = table c) : vol.IsChain table' first l :=
  ⟨h.links.congr hsame, h.data⟩

theorem IsChain.update (h : vol.IsChain table first l) (hc : c ∉ l) (v : BitVec 32) :
    vol.IsChain (update table c v) first l :=
  h.congr fun _ hd => update_of_ne (ne_of_mem_of_not_mem hd hc) ..

theorem enoughFree_succ_iff (hc : vol.IsData c) (hfree : table c = 0#32) (hv : v ≠ 0#32) :
    vol.EnoughFree table (n + 1) ↔ vol.EnoughFree (update table c v) n := by
  constructor
  · rintro ⟨free, hnodup, hlength, hall⟩
    refine ⟨(free.erase c).take n, (hnodup.erase c).sublist (take_sublist ..), ?_, ?_⟩
    · grind
    grind
  rintro ⟨free, hnodup, hlength, hall⟩
  have hnot : c ∉ free := fun hmem => hv (by simpa using (hall c hmem).2)
  refine ⟨c :: free, nodup_cons.2 ⟨hnot, hnodup⟩, by simp [hlength], ?_⟩
  rintro d (_ | ⟨_, hd⟩)
  · exact ⟨hc, hfree⟩
  have := (hall d hd).2
  rw [update_of_ne (ne_of_mem_of_not_mem hd hnot)] at this
  exact ⟨(hall d hd).1, this⟩

/-- A table with clusters freed. -/
def cleared (table : BitVec 32 → BitVec 32) (l : List (BitVec 32)) : BitVec 32 → BitVec 32 :=
  fun c => if c ∈ l then 0#32 else table c

@[simp] theorem cleared_nil (table : BitVec 32 → BitVec 32) : cleared table [] = table := by
  funext d
  simp [cleared]

theorem cleared_cons (table : BitVec 32 → BitVec 32) (c : BitVec 32) (l : List (BitVec 32)) :
    cleared (update table c 0#32) l = cleared table (c :: l) := by
  funext d
  unfold cleared
  by_cases hl : d ∈ l
  · simp [hl]
  grind

end FatPlain

namespace FatFs

variable {fs : FatFs} {vol : FatPlain} {table : BitVec 32 → BitVec 32} {c first : BitVec 32}
  {l : List (BitVec 32)}

/-- **Freeing a cluster.** -/
theorem Holds.fatFreeCluster (h : fs.Holds vol table) (hc : c.toNat < 2 ^ 28) :
    (fs.fatFreeCluster c).2.Holds vol (update table c 0#32) := by
  unfold FatFs.fatFreeCluster
  split
  · next hhint =>
    have hsb := h.superblock
    refine setNext_holds hsb h.answers h.next hc (by simp) fun c' hc' hlt => ?_
    have hlt : c' < c := hlt
    rw [update_of_ne (by bv_omega)]
    exact h.hint c' hc' (by bv_omega)
  next hhint =>
  refine setNext_holds h.superblock h.answers h.next hc (by simp) fun c' hc' hlt => ?_
  have hne : c' ≠ c := by
    rintro rfl
    exact hhint hlt
  rw [update_of_ne hne]
  exact h.hint c' hc' hlt

open FatPlain

/-- **Freeing a chain**, up to a number of clusters. -/
theorem Holds.freeLoop (h : fs.Holds vol table) (hchain : vol.IsChain table first l) (iters : Nat) :
    (freeLoop iters fs first).Holds vol (cleared table (l.take iters)) := by
  induction iters generalizing fs table first l with
  | zero => simpa [freeLoop] using h
  | succ iters ih => ?_
  unfold freeLoop
  cases l with
  | nil =>
    rw [if_neg (by rw [h.eof]; exact fun hne => hne.1 hchain.links.path)]
    simpa using h
  | cons c l => ?_
  have hnodup := hchain.links.nodup
  obtain ⟨rfl, hdata, hrest⟩ := FatPlain.IsChain.cons_iff.1 hchain
  rw [if_pos ⟨by rw [h.eof]; exact ne_eof hdata, ne_zero hdata⟩, h.next _ hdata,
    take_succ_cons, ← cleared_cons]
  exact ih (h.fatFreeCluster (scale_of_isData hdata).1) (hrest.update (nodup_cons.1 hnodup).1 _)

/-- The loop of `fat_shrink` is that of `fat_free_clusters`. -/
theorem shrinkLoop_eq (left : Nat) (fs : FatFs) (cluster : BitVec 32) :
    shrinkLoop left fs cluster = freeLoop left fs cluster := by
  induction left generalizing fs cluster with
  | zero => rfl
  | succ left ih => ?_
  unfold shrinkLoop freeLoop
  by_cases hend : cluster = fs.eof ∨ cluster = 0#32
  · rw [if_pos hend, if_neg (fun hne => hend.elim hne.1 hne.2)]
  rw [if_neg hend, if_pos (not_or.1 hend)]
  exact ih ..

theorem Holds.allocated (h : fs.Holds vol table) (hc : vol.IsData c)
    (hbefore : ∀ c', vol.IsData c' → c'.toNat < c.toNat → table c' ≠ 0)
    (hfirst : first.toNat ≤ vol.fatType.fatEof.toNat) (hne : first ≠ 0#32) :
    ((fs.setHint (c + 1#32)).setNext c first).2.Holds vol (update table c first) := by
  have hsb := h.superblock
  refine setNext_holds hsb h.answers h.next (scale_of_isData hc).1 hfirst fun c' hc' hlt => ?_
  have hlt : c' < c + 1#32 := hlt
  rw [update_apply]
  split
  · exact hne
  exact hbefore c' hc' (by bv_omega)

section

variable (h : fs.Holds vol table) (hchain : vol.IsChain table first l)
include h hchain

theorem Holds.walk (number : Nat) :
    fs.walk number first = (l.drop number).headD vol.fatType.fatEof := by
  induction number generalizing first l with
  | zero => exact hchain.first_eq
  | succ number ih => ?_
  unfold walk
  cases l with
  | nil =>
    have hfirst := hchain.links.path
    rw [if_pos (.inl (by rw [h.eof, hfirst])), hfirst]
    rfl
  | cons c l => ?_
  obtain ⟨rfl, hdata, hrest⟩ := FatPlain.IsChain.cons_iff.1 hchain
  have hgo : ¬(first = fs.eof ∨ first = 0#32) := by
    rw [h.eof]
    exact not_or.2 ⟨ne_eof hdata, ne_zero hdata⟩
  rw [if_neg hgo, h.next _ hdata, ih hrest, drop_succ_cons]

/-- The loop of `fat_truncate` counts the clusters of the chain, up to a limit, and finds the last one
that it counted. -/
theorem Holds.countLoop (limit i : Nat) (last : BitVec 32) :
    fs.countLoop limit i last first =
      (i + (l.take limit).length, (l.take limit).getLast?.getD last) := by
  induction limit generalizing first l i last with
  | zero => rfl
  | succ limit ih => ?_
  unfold FatFs.countLoop
  cases l with
  | nil =>
    rw [if_pos (by rw [h.eof, hchain.first_eq, headD_nil])]
    rfl
  | cons c l => ?_
  obtain ⟨rfl, hdata, hrest⟩ := FatPlain.IsChain.cons_iff.1 hchain
  have hne : first ≠ fs.eof := by
    rw [h.eof]
    exact ne_eof hdata
  rw [if_neg hne, h.next _ hdata, ih hrest, take_succ_cons, length_cons, List.getLast?_cons,
    Option.getD_some, add_assoc, add_comm 1]

/-- **Growing.** If there are enough free clusters, `count` of them are put in front of the chain. -/
theorem Holds.growLoop {count : Nat} (henough : vol.EnoughFree table count) :
    ∃ cluster fs' table' new, growLoop count fs first = (.ok cluster, fs') ∧
      fs'.Holds vol table' ∧ new.length = count ∧ vol.IsChain table' cluster (new ++ l) ∧
      (∀ c ∈ new, table c = 0#32) ∧ ∀ c, c ∉ new → table' c = table c := by
  induction count generalizing fs table first l with
  | zero =>
    exact ⟨first, fs, table, [], rfl, h, rfl, hchain, by simp, fun _ _ => rfl⟩
  | succ count ih => ?_
  unfold growLoop
  rcases fatAllocateCluster_spec h with ⟨c, hc, hfree, hbefore, halloc⟩ | ⟨hnone, -⟩
  · obtain ⟨hfirst, hne⟩ := hchain.first_le
    have hnot : c ∉ l := fun hmem => hchain.ne_zero_of_mem hmem hfree
    have hset := h.allocated hc hbefore hfirst hne
    have hlinked : vol.IsChain (update table c first) c (c :: l) :=
      FatPlain.IsChain.cons_iff.2 ⟨rfl, hc, by simpa using hchain.update hnot first⟩
    obtain ⟨cluster, fs', table', new, hgrow, hholds, hlength, hnew, hzero, hsame⟩ :=
      ih hset hlinked ((enoughFree_succ_iff hc hfree hne).1 henough)
    have hin {d : BitVec 32} (hd : d ∈ new) : d ≠ c := by grind
    rw [halloc, if_neg (by rw [h.eof]; exact ne_eof hc)]
    refine ⟨cluster, fs', table', new ++ [c], hgrow, hholds, by simp [hlength], by simpa using hnew,
      fun d hd => ?_, fun d hd => ?_⟩
    · grind
    grind
  obtain ⟨free, -, hlength, hall⟩ := henough
  obtain ⟨d, hd⟩ := exists_mem_of_length_pos (by omega : 0 < free.length)
  exact absurd (hall d hd).2 (hnone d (hall d hd).1)

end

/-- **Growing fails** if there are not enough free clusters. Some that were free are taken. -/
theorem Holds.growLoop_error (h : fs.Holds vol table) (hfirst : first.toNat ≤ vol.fatType.fatEof.toNat)
    (hne : first ≠ 0#32) {count : Nat} (hfew : ¬vol.EnoughFree table count) :
    ∃ e fs' table', FatFs.growLoop count fs first = (.error e, fs') ∧ fs'.Holds vol table' ∧
      ∀ c, table c ≠ 0#32 → table' c = table c := by
  induction count generalizing fs table first with
  | zero => exact absurd ⟨[], nodup_nil, rfl, by simp⟩ hfew
  | succ count ih => ?_
  unfold FatFs.growLoop
  rcases fatAllocateCluster_spec h with ⟨c, hc, hfree, hbefore, halloc⟩ | ⟨hnone, halloc⟩
  · have hset := h.allocated hc hbefore hfirst hne
    have hfirst' : c.toNat ≤ vol.fatType.fatEof.toNat := by
      have := hc.2
      have := vol.clusters_eof
      omega
    obtain ⟨e, fs', table', hgrow, hholds, hsame⟩ :=
      ih hset hfirst' (ne_zero hc) fun hall => hfew ((enoughFree_succ_iff hc hfree hne).2 hall)
    rw [halloc, if_neg (by rw [h.eof]; exact ne_eof hc)]
    refine ⟨e, fs', table', hgrow, hholds, fun d hd => ?_⟩
    have hdc : update table c first d = table d := update_of_ne (by rintro rfl; exact hd hfree) ..
    rw [hsame d (by rwa [hdc]), hdc]
  rw [halloc, if_pos rfl]
  exact ⟨_, _, table, rfl, ⟨h.superblock, h.answers, h.next, fun c hc _ => hnone c hc⟩, fun _ _ => rfl⟩

end FatFs

end Stanix

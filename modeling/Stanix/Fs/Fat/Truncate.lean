import Stanix.Fs.Fat.Clusters
import Mathlib.Data.Finset.Max
import Mathlib.Order.Interval.Finset.Nat

/-!
# Truncating a file

What `fat_truncate` should do to the chain of a file is `TruncateLaw`: cut it or extend it to the
number of clusters of the new size, free what is cut off, leave all other chains, and report an error
when clusters run out. What `fat_free_clusters` should do is `FreeLaw`.

`fat_truncate_iff` says when they do. To cut a chain behind its `n`-th cluster, `fat_shrink` changes
the entry of cluster number `n` instead, and the clusters are counted up to the recorded size, so that
what is behind in a longer chain is lost.
-/

namespace Stanix

open FatPlain FatVolume List Function Exec

/-- The chain of a file, whose first cluster is zero if it has none. -/
def FatPlain.IsFileChain (vol : FatPlain) (table : BitVec 32 → BitVec 32) (first : BitVec 32)
    (l : List (BitVec 32)) : Prop :=
  vol.IsChain table first l ∨ first = 0#32 ∧ l = []

/-- The number of clusters of a file. -/
def clustersFor (clusterSize size : Nat) : Nat := (size + clusterSize - 1) / clusterSize

/-- The number of clusters that the recorded size of a file says it has, as `fat_truncate` rounds it up
with 32 bits (`fat.c:1096`). -/
def FatFs.currentClusters (fs : FatFs) (inode : FatInode) : Nat :=
  ((inode.fileSize + fs.superblock.clusterSize - 1#32) / fs.superblock.clusterSize).toNat

/-- **The law of truncating** a file with the chain `chain` to `count` clusters, which turned the
volume `fs` into `fs'` and the inode into `inode'` and returned `ret`. -/
structure TruncateLaw (vol : FatPlain) (chain : List (BitVec 32)) (count : Nat) (fs : FatFs)
    (inode : FatInode) (ret : Except Errno Unit) (fs' : FatFs) (inode' : FatInode) : Prop where
  resized : ret = .ok () → ∃ chain', vol.IsFileChain fs'.next inode'.firstCluster chain' ∧
    chain'.length = count ∧ (chain' <+: chain ∨ chain <+: chain') ∧
    ∀ c ∈ chain, c ∉ chain' → fs'.next c = 0#32
  others : ret = .ok () → ∀ first l, vol.IsChain fs.next first l → l.Disjoint chain →
    vol.IsChain fs'.next first l
  runOut : ¬vol.EnoughFree fs.next (count - chain.length) →
    (∃ e, ret = .error e) ∧ inode'.fileSize = inode.fileSize ∧
      ∀ c, vol.IsData c → fs'.next c ≠ 0#32 → fs.next c ≠ 0#32

/-- **The law of freeing** the chain `chain`. -/
structure FreeLaw (vol : FatPlain) (chain : List (BitVec 32)) (fs fs' : FatFs) : Prop where
  freed : ∀ c ∈ chain, fs'.next c = 0#32
  others : ∀ first l, vol.IsChain fs.next first l → l.Disjoint chain → vol.IsChain fs'.next first l

namespace FatPlain

variable {vol : FatPlain} {table : BitVec 32 → BitVec 32} {first c : BitVec 32}
  {l : List (BitVec 32)} {n : Nat}

theorem eq_take_of_length {l' : List (BitVec 32)} (hsub : l' <+: l ∨ l <+: l')
    (hlength : l'.length = n) (hle : n ≤ l.length) : l' = l.take n := by
  rcases hsub with hsub | hsub
  · rw [← hlength]
    exact (prefix_iff_eq_take.1 hsub)
  rw [hsub.eq_of_length_le (by omega), take_of_length_le hlength.le]

/-- A file has one chain. -/
theorem IsFileChain.unique {l' : List (BitVec 32)} (h : vol.IsFileChain table first l)
    (h' : vol.IsFileChain table first l') : l = l' := by
  rcases h with h | ⟨rfl, rfl⟩
  · rcases h' with h' | ⟨rfl, rfl⟩
    · exact h.links.unique h'.links
    exact absurd rfl h.first_le.2
  rcases h' with h' | ⟨-, rfl⟩
  · exact absurd rfl h'.first_le.2
  rfl

theorem length_le_of_data (hnodup : l.Nodup) (hdata : ∀ c ∈ l, vol.IsData c) :
    l.length ≤ vol.dataClusters.toNat := by
  have hcard : l.toFinset.card ≤ (Finset.Ico 2 (vol.dataClusters.toNat + 2)).card := by
    refine Finset.card_le_card_of_injOn BitVec.toNat (fun c hc => ?_)
      fun c _ d _ heq => BitVec.eq_of_toNat_eq heq
    have hc := hdata c (mem_toFinset.1 hc)
    exact Finset.mem_coe.2 (Finset.mem_Ico.2 ⟨hc.1, hc.2⟩)
  rw [toFinset_card_of_nodup hnodup, Nat.card_Ico] at hcard
  omega

theorem EnoughFree.le (h : vol.EnoughFree table n) : n ≤ vol.dataClusters.toNat := by
  obtain ⟨free, hnodup, rfl, hall⟩ := h
  exact length_le_of_data hnodup fun c hc => (hall c hc).1

section

variable (h : vol.IsChain table first l)
include h

theorem IsChain.drop (n : Nat) :
    vol.IsChain table ((l.drop n).headD vol.fatType.fatEof) (l.drop n) := by
  induction n generalizing first l with
  | zero =>
    rw [drop_zero, ← h.first_eq]
    exact h
  | succ n ih =>
    cases l with
    | nil => simpa using ih h
    | cons c l => exact ih (IsChain.cons_iff.1 h).2.2

theorem IsChain.length_le : l.length ≤ vol.dataClusters.toNat :=
  length_le_of_data h.links.nodup h.data

theorem IsChain.next_of_getElem {k : Nat} {c : BitVec 32} (hc : l[k]? = some c) :
    table c = (l.drop (k + 1)).headD vol.fatType.fatEof := by
  have hdrop := h.drop k
  have hcons : l.drop k = c :: l.drop (k + 1) := by
    obtain ⟨hk, rfl⟩ := List.getElem?_eq_some_iff.1 hc
    exact drop_eq_getElem_cons hk
  rw [hcons] at hdrop
  exact (IsChain.cons_iff.1 hdrop).2.2.first_eq

theorem IsChain.next_getLast (hc : l.getLast? = some c) : table c = vol.fatType.fatEof := by
  rw [List.getLast?_eq_getElem?] at hc
  rw [h.next_of_getElem hc, drop_of_length_le (by omega)]
  rfl

/-- A chain whose `n`-th cluster gets the mark. -/
theorem IsChain.take {table' : BitVec 32 → BitVec 32} (hlast : (l.take n).getLast? = some c)
    (hmark : table' c = vol.fatType.fatEof) (hsame : ∀ d ∈ l.take n, d ≠ c → table' d = table d) :
    vol.IsChain table' first (l.take n) := by
  obtain ⟨init, hinit⟩ := List.getLast?_eq_some_iff.1 hlast
  have hpath : Chain.Path table first (l.take n ++ l.drop n) vol.fatType.fatEof := by
    rw [take_append_drop]
    exact h.links.path
  obtain ⟨x, htake, -⟩ := Chain.path_append.1 hpath
  have hnodup : (l.take n).Nodup := h.links.nodup.sublist (take_sublist ..)
  refine ⟨⟨?_, fun hmem => h.links.stop (mem_of_mem_take hmem)⟩,
    fun d hd => h.data d (mem_of_mem_take hd)⟩
  rw [hinit] at htake hsame hnodup ⊢
  have hnot : c ∉ init := fun hmem => by grind
  rw [← hmark]
  have hredirect := htake.redirect hnot (table' c)
  refine hredirect.congr fun d hd => ?_
  by_cases hdc : d = c
  · rw [hdc, update_self]
  rw [update_of_ne hdc]
  exact hsame d hd hdc

end

end FatPlain

namespace FatFs

variable {fs : FatFs} {vol : FatPlain} {table : BitVec 32 → BitVec 32} {inode : FatInode}
  {chain rest : List (BitVec 32)} {new current : Nat} {inode' : FatInode} {fs' : FatFs} {count : Nat}

section

variable (h : fs.Holds vol table)

include h

theorem Holds.isChain_iff {first : BitVec 32} {l : List (BitVec 32)} :
    vol.IsChain fs.next first l ↔ vol.IsChain table first l :=
  ⟨fun hl => hl.congr fun c hc => (h.next c (hl.data c hc)).symm,
    fun hl => hl.congr fun c hc => h.next c (hl.data c hc)⟩

/-- **Shrinking.** The clusters behind the first `new` are freed, up to those that were counted. If
some stay, the mark is written into the entry of cluster number `new`. -/
theorem Holds.fatShrink (hchain : vol.IsChain table inode.firstCluster chain) (hlt : new < current)
    (hcounted : current ≤ chain.length) :
    ∃ r fs' inode', fs.fatShrink inode current new = .ok (r, fs', inode') ∧
      (new = 0 → fs'.Holds vol (cleared table (chain.take current)) ∧ inode'.firstCluster = fs.eof) ∧
      (new ≠ 0 → inode' = inode ∧ fs'.Holds vol (update
        (cleared table ((chain.take current).drop new)) (.ofNat 32 new) vol.fatType.fatEof)) := by
  have hlength := hchain.length_le
  have hbound := vol.clusters_eof
  have hnew : (BitVec.ofNat 32 new).toNat = new := by
    exact Nat.mod_eq_of_lt (by omega)
  have hfreed := h.freeLoop (hchain.drop new) (current - new)
  rw [← drop_take, ← shrinkLoop_eq] at hfreed
  unfold FatFs.fatShrink
  rw [assert_of hlt]
  dsimp only [bind, pure]
  unfold fatGetCluster
  rw [hnew, h.walk hchain]
  generalize shrinkLoop (current - new) fs ((chain.drop new).headD vol.fatType.fatEof) = fs1
    at hfreed ⊢
  unfold fatSetCluster
  by_cases hzero : new = 0
  · subst hzero
    refine ⟨_, _, _, rfl, fun _ => ⟨hfreed, ?_⟩, absurd rfl⟩
    rw [h.eof, ← hfreed.eof]
  have hne : BitVec.ofNat 32 new ≠ 0#32 := fun heq => hzero (by rw [← hnew, heq]; rfl)
  have hmark : BitVec.ofNat 32 new ≠ fs1.eof := by
    rw [hfreed.eof]
    exact fun heq => absurd (congrArg BitVec.toNat heq) (by omega)
  rw [if_neg hne, if_neg hmark, hfreed.eof]
  have hlt : (BitVec.ofNat 32 new).toNat < 2 ^ 28 := by have := fatEof_lt_pow vol.fatType; omega
  have hset := hfreed.setNext hlt (le_rfl) (fatEof_ne_zero _)
  exact ⟨_, _, _, rfl, fun h => absurd h hzero, fun _ => ⟨rfl, hset⟩⟩

/-- **Growing.** Clusters that were free are put behind the first clusters of a chain, in the place of
the others. -/
theorem Holds.fatGrow (hchain : vol.IsFileChain table inode.firstCluster (chain ++ rest))
    (hcount : 0 < count) (henough : vol.EnoughFree table count) :
    ∃ r fs' inode' table' added,
      fs.fatGrow inode (chain.getLast?.getD 0#32) count = .ok (r, fs', inode') ∧
      fs'.Holds vol table' ∧ added.length = count ∧
      vol.IsChain table' inode'.firstCluster (chain ++ added) ∧ (∀ c ∈ added, table c = 0#32) ∧
      ∀ c, c ∉ added → c ∉ chain → table' c = table c := by
  have hnil : vol.IsChain table fs.eof [] := ⟨⟨h.eof, not_mem_nil⟩, by simp⟩
  obtain ⟨cluster, fs1, table1, added, hgrow, hholds, hlength, hadded, hzero, hsame⟩ :=
    h.growLoop hnil henough
  rw [append_nil] at hadded
  unfold FatFs.fatGrow
  rw [assert_of hcount]
  rw [hgrow]
  dsimp only
  unfold fatSetCluster
  cases hlast : chain.getLast? with
  | none =>
    rw [List.getLast?_eq_none_iff.1 hlast]
    exact ⟨_, _, _, table1, added, rfl, hholds, hlength, hadded, hzero, fun c hc _ => hsame c hc⟩
  | some last => ?_
  obtain ⟨init, rfl⟩ := List.getLast?_eq_some_iff.1 hlast
  have hold := hchain.resolve_right fun hempty => by simp at hempty
  have hmem : last ∈ init ++ [last] := by simp
  have hdata := hold.data last (mem_append_left rest hmem)
  have hnot {c : BitVec 32} (hc : c ∈ init ++ [last]) : c ∉ added := fun hc' =>
    hold.ne_zero_of_mem (mem_append_left rest hc) (hzero c hc')
  obtain ⟨hcluster, hne⟩ := hadded.first_le
  have hset := hholds.setNext (scale_of_isData hdata).1 hcluster hne
  rw [Option.getD_some, if_neg (ne_zero hdata),
    if_neg (by rw [hholds.eof]; exact ne_eof hdata)]
  refine ⟨_, _, _, update table1 last cluster, added, rfl, hset, hlength, ⟨⟨?_, ?_⟩, ?_⟩,
    hzero, fun c hc hc' => ?_⟩
  · refine Chain.path_append.2 ⟨cluster, ?_, (hadded.update (hnot hmem) cluster).links.path⟩
    have hinit : last ∉ init := fun hin =>
      (nodup_append.1 (nodup_append.1 hold.links.nodup).1).2.2 last hin last (mem_singleton_self _) rfl
    obtain ⟨x, hpath, -⟩ := Chain.path_append.1 hold.links.path
    exact (hpath.congr fun c hc => hsame c (hnot hc)).redirect hinit cluster
  · exact fun hin => (mem_append.1 hin).elim (fun hl => hold.links.stop (mem_append_left rest hl))
      hadded.links.stop
  · exact fun c hc => (mem_append.1 hc).elim (fun hl => hold.data c (mem_append_left rest hl))
      (hadded.data c)
  rw [update_of_ne (ne_of_mem_of_not_mem hmem hc').symm, hsame c hc]

/-- Without enough free clusters the chain stays as it is. -/
theorem Holds.fatGrow_error (prev : BitVec 32) (hcount : 0 < count)
    (hfew : ¬vol.EnoughFree table count) :
    ∃ e fs' table', fs.fatGrow inode prev count = .ok (.error e, fs', inode) ∧
      fs'.Holds vol table' ∧ ∀ c, table c ≠ 0#32 → table' c = table c := by
  have hmark : fs.eof.toNat ≤ vol.fatType.fatEof.toNat ∧ fs.eof ≠ 0#32 := by
    rw [h.eof]
    exact ⟨le_rfl, fatEof_ne_zero _⟩
  obtain ⟨e, fs', table', hgrow, hholds, hsame⟩ := h.growLoop_error hmark.1 hmark.2 hfew
  unfold FatFs.fatGrow
  rw [assert_of hcount, hgrow]
  exact ⟨e, fs', table', rfl, hholds, hsame⟩

end

/-! ## The laws -/

/-- **Cutting a chain** keeps the law exactly when nothing stays of it or the last cluster that stays
happens to be the one whose number is the number of clusters that stay. -/
theorem truncateLaw_shrink_iff (h : fs.Holds vol fs.next)
    (hchain : vol.IsChain fs.next inode.firstCluster chain) (hlt : new < chain.length)
    (hzero : new = 0 → fs'.Holds vol (cleared fs.next chain) ∧ inode'.firstCluster = fs.eof)
    (hpos : new ≠ 0 → inode'.firstCluster = inode.firstCluster ∧ fs'.Holds vol
      (update (cleared fs.next (chain.drop new)) (.ofNat 32 new) vol.fatType.fatEof)) :
    TruncateLaw vol chain new fs inode (.ok ()) fs' inode' ↔
      new = 0 ∨ chain[new - 1]? = some (.ofNat 32 new) := by
  have hrunOut {P : Prop} : ¬vol.EnoughFree fs.next (new - chain.length) → P := fun hfew =>
    absurd ⟨[], nodup_nil, by simp; omega, by simp⟩ hfew
  rcases Nat.eq_zero_or_pos new with rfl | hnew
  · obtain ⟨hholds, hfirst⟩ := hzero rfl
    refine iff_of_true ⟨fun _ => ⟨[], .inl ⟨⟨?_, not_mem_nil⟩, by simp⟩, rfl,
      .inl ( nil_prefix ..), fun c hc _ => ?_⟩, fun _ first l hl hdisjoint => ?_, hrunOut⟩ (.inl rfl)
    · rw [hfirst, h.eof]
      rfl
    · rw [hholds.next c (hchain.data c hc), cleared, if_pos hc]
    exact hholds.isChain_iff.2 (hl.congr fun c hc => if_neg (hdisjoint hc))
  obtain ⟨hfirst, hholds⟩ := hpos (by omega)
  obtain ⟨c, hc⟩ : ∃ c, chain[new - 1]? = some c := ⟨_, List.getElem?_eq_getElem (by omega)⟩
  have hlast : (chain.take new).getLast? = some c := by grind
  have hdisjoint := disjoint_take_drop hchain.links.nodup (Nat.le_refl new)
  have hkept {d : BitVec 32} (hd : d ∈ chain.take new) :
      cleared fs.next (chain.drop new) d = fs.next d := if_neg (hdisjoint hd)
  have hmem : c ∈ chain.take new := mem_of_getLast? hlast
  rw [hc, Option.some_inj, or_iff_right (by omega)]
  constructor
  · intro hlaw
    by_contra hne
    obtain ⟨chain', hfile, hlength, hsub, -⟩ := hlaw.resized rfl
    obtain rfl := eq_take_of_length hsub hlength hlt.le
    have hlinked := hfile.resolve_right fun hempty => by rw [hempty.2] at hmem; cases hmem
    -- the entry of the last cluster still names the first one that was freed
    have hentry := (hholds.isChain_iff.1 hlinked).next_getLast hlast
    rw [update_of_ne hne, hkept hmem, hchain.next_of_getElem hc, Nat.sub_add_cancel hnew,
      drop_eq_getElem_cons hlt] at hentry
    exact ne_eof (hchain.data _ (getElem_mem hlt)) hentry
  rintro rfl
  have hsame {d : BitVec 32} (hd : d ≠ .ofNat 32 new) (hdrop : d ∉ chain.drop new) :
      update (cleared fs.next (chain.drop new)) (.ofNat 32 new)
        vol.fatType.fatEof d = fs.next d := by
    rw [update_of_ne hd]
    exact if_neg hdrop
  refine ⟨fun _ => ⟨chain.take new, .inl ?_, by simp; omega, .inl ( take_prefix ..),
    fun d hd hcut => ?_⟩, fun _ first l hl hapart => ?_, hrunOut⟩
  · rw [hfirst]
    exact hholds.isChain_iff.2 (hchain.take hlast (update_self ..)
      fun d hd hne => hsame hne (hdisjoint hd))
  · have hdrop : d ∈ chain.drop new := by
      rw [← take_append_drop new chain, mem_append] at hd
      exact hd.resolve_left hcut
    rw [hholds.next d (hchain.data d hd), update_of_ne (by rintro rfl; exact hcut hmem)]
    exact if_pos hdrop
  refine hholds.isChain_iff.2 (hl.congr fun d hd => hsame ?_ fun hdrop => ?_)
  · rintro rfl
    exact hapart hd (mem_of_mem_take hmem)
  exact hapart hd (mem_of_mem_drop hdrop)

/-- **Extending a chain** keeps the law if there are enough free clusters. -/
theorem truncateLaw_grow {added : List (BitVec 32)} (hholds : fs'.Holds vol table)
    (hgrown : vol.IsChain table inode'.firstCluster (chain ++ added))
    (hnew : (chain ++ added).length = new) (henough : vol.EnoughFree fs.next (new - chain.length))
    (hzero : ∀ c ∈ added, fs.next c = 0#32)
    (hsame : ∀ c, c ∉ added → c ∉ chain → table c = fs.next c) :
    TruncateLaw vol chain new fs inode (.ok ()) fs' inode' := by
  refine ⟨fun _ => ⟨chain ++ added, .inl (hholds.isChain_iff.2 hgrown), hnew,
    .inr (prefix_append ..), fun c hc hcut => ?_⟩, fun _ first l hl hapart => ?_,
    fun hfew => absurd henough hfew⟩
  · exact absurd (mem_append_left added hc) hcut
  refine hholds.isChain_iff.2 (hl.congr fun c hc => hsame c (fun hadded => ?_) (hapart hc))
  exact hl.ne_zero_of_mem hc (hzero c hadded)

theorem freeLoop_zero (iters : Nat) (fs : FatFs) : freeLoop iters fs 0#32 = fs := by
  cases iters with
  | zero => rfl
  | succ iters => exact if_neg fun hne => hne.2 rfl

/-- **Freeing a file** keeps the law exactly when its chain is not longer than the loop. -/
theorem freeLaw_iff (h : fs.Holds vol fs.next)
    (hchain : vol.IsFileChain fs.next inode.firstCluster chain) :
    FreeLaw vol chain fs (fs.fatFreeClusters inode) ↔ chain.length ≤ 10000 := by
  unfold fatFreeClusters
  rcases hchain with hchain | ⟨hfirst, rfl⟩
  · have hholds := h.freeLoop hchain 10000
    constructor
    · intro hlaw
      by_contra hlong
      have hlt : 10000 < chain.length := by omega
      have hmem := getElem_mem hlt
      have hdrop : chain[10000] ∈ chain.drop 10000 := by
        rw [drop_eq_getElem_cons hlt]
        exact mem_cons_self
      have hnot : chain[10000] ∉ chain.take 10000 := fun htake =>
        disjoint_take_drop hchain.links.nodup (le_rfl) htake hdrop
      have hfreed := hlaw.freed _ hmem
      rw [hholds.next _ (hchain.data _ hmem), cleared, if_neg hnot] at hfreed
      exact hchain.ne_zero_of_mem hmem hfreed
    intro hshort
    rw [take_of_length_le hshort] at hholds
    refine ⟨fun c hc => ?_, fun first l hl hapart => ?_⟩
    · rw [hholds.next c (hchain.data c hc), cleared, if_pos hc]
    exact hholds.isChain_iff.2 (hl.congr fun c hc => if_neg (hapart hc))
  rw [hfirst, freeLoop_zero]
  exact iff_of_true ⟨by simp, fun _ _ hl _ => hl⟩ (by simp)

/-! ## Truncating -/

/-- What `fat_truncate` does once the clusters are counted (`fat.c:1111`). -/
def truncateTo (fs : FatFs) (inode : FatInode) (current : Nat) (last : BitVec 32) (new : Nat) :
    Exec (Except Errno Unit × FatFs × FatInode) :=
  if new < current then fs.fatShrink inode current new
  else if new > current then fs.fatGrow inode last (new - current)
  else .ok (.ok (), fs, inode)

theorem truncateTo_ok (fs : FatFs) (inode : FatInode) (current : Nat) (last : BitVec 32) (new : Nat) :
    ∃ r, fs.truncateTo inode current last new = .ok r := by
  unfold truncateTo
  split
  · next hlt =>
    unfold FatFs.fatShrink
    rw [assert_of hlt]
    exact ⟨_, rfl⟩
  split
  · next hgt =>
    unfold FatFs.fatGrow
    rw [assert_of (Nat.sub_pos_of_lt hgt)]
    split
    · exact ⟨_, rfl⟩
    exact ⟨_, rfl⟩
  exact ⟨_, rfl⟩

theorem fatTruncate_eq {last : BitVec 32} (hcount : fs.countLoop (fs.currentClusters inode) 0 0#32
      inode.firstCluster = (current, last)) (size : Nat) :
    fs.fatTruncate inode size =
      fs.truncateTo inode current last (wrap (size + fs.superblock.clusterSize.toNat - 1) /
        fs.superblock.clusterSize.toNat) >>= fun r =>
          .ok (.ok (), r.2.1, { r.2.2 with fileSize := .ofNat 32 size }) := by
  unfold currentClusters at hcount
  unfold FatFs.fatTruncate truncateTo
  dsimp only
  rw [hcount]
  dsimp only
  split
  · rfl
  split <;> rfl

theorem enoughFree_zero {n : Nat} (hn : n = 0) : vol.EnoughFree table n :=
  ⟨[], nodup_nil, hn.symm, by simp⟩

/-- After a call that succeeds, the law is about the one chain of the file. -/
theorem length_of_truncateLaw {l : List (BitVec 32)}
    (hlaw : TruncateLaw vol chain new fs inode (.ok ()) fs' inode')
    (hfile : vol.IsFileChain fs'.next inode'.firstCluster l) :
    l.length = new ∧ (l <+: chain ∨ chain <+: l) := by
  obtain ⟨chain', hchain', hlength, hsub, -⟩ := hlaw.resized rfl
  cases hfile.unique hchain'
  exact ⟨hlength, hsub⟩

section

variable (h : fs.Holds vol fs.next) (size : BitVec 32)
include h

/-- **A chain of which all clusters were counted** is cut or extended. -/
theorem Holds.truncateTo_all (hchain : vol.IsFileChain fs.next inode.firstCluster chain) :
    ∃ r fs' inode', fs.truncateTo inode chain.length (chain.getLast?.getD 0#32) new =
        .ok (r, fs', inode') ∧
      (TruncateLaw vol chain new fs inode (.ok ()) fs' { inode' with fileSize := size } ↔
        (new < chain.length → new = 0 ∨ chain[new - 1]? = some (.ofNat 32 new)) ∧
          vol.EnoughFree fs.next (new - chain.length)) := by
  unfold truncateTo
  rcases lt_trichotomy new chain.length with hlt | heq | hgt
  · have hlinked := hchain.resolve_right fun hempty => by rw [hempty.2] at hlt; cases hlt
    obtain ⟨r, fs', inode', hshrink, hzero, hrest⟩ := h.fatShrink hlinked hlt le_rfl
    rw [take_length] at hzero hrest
    rw [if_pos hlt, hshrink]
    refine ⟨_, _, _, rfl, Iff.trans (truncateLaw_shrink_iff h hlinked hlt hzero fun hne => ?_)
      ⟨fun hcut => ⟨fun _ => hcut, enoughFree_zero (by omega)⟩, fun hcond => hcond.1 hlt⟩⟩
    obtain ⟨rfl, hholds⟩ := hrest hne
    exact ⟨rfl, hholds⟩
  · rw [if_neg (by omega), if_neg (by omega)]
    exact ⟨_, _, _, rfl, iff_of_true ⟨fun _ => ⟨chain, hchain, heq.symm, .inl (prefix_refl _),
      fun c hc hcut => absurd hc hcut⟩, fun _ _ _ hl _ => hl,
      fun hfew => absurd (enoughFree_zero (by omega)) hfew⟩
      ⟨fun hlt => by omega, enoughFree_zero (by omega)⟩⟩
  rw [if_neg (by omega), if_pos hgt]
  by_cases henough : vol.EnoughFree fs.next (new - chain.length)
  · rw [← append_nil chain] at hchain
    obtain ⟨r, fs', inode', table', added, hgrow, hholds, hadded, hgrown, hzero, hsame⟩ :=
      h.fatGrow hchain (by omega) henough
    rw [hgrow]
    refine ⟨_, _, _, rfl, iff_of_true (truncateLaw_grow hholds hgrown ?_ henough hzero hsame)
      ⟨fun hlt => by omega, henough⟩⟩
    rw [length_append, hadded]
    omega
  -- the error of `fat_grow` is dropped
  obtain ⟨e, fs', table', hgrow, -⟩ :=
    h.fatGrow_error (chain.getLast?.getD 0#32) (Nat.sub_pos_of_lt hgt) henough
  rw [hgrow]
  refine ⟨_, _, _, rfl, iff_of_false (fun hlaw => ?_) fun hcond => henough hcond.2⟩
  obtain ⟨⟨e, herror⟩, -⟩ := hlaw.runOut henough
  cases herror

/-- **A chain that is longer than was counted** loses what is behind, or is not cut or extended. The
law holds if the chain has the new length before, and there are not enough free clusters to
extend what was counted. -/
theorem Holds.truncateTo_longer (hchain : vol.IsChain fs.next inode.firstCluster chain)
    (hlonger : current < chain.length) :
    ∃ r fs' inode', fs.truncateTo inode current ((chain.take current).getLast?.getD 0#32) new =
        .ok (r, fs', inode') ∧
      (TruncateLaw vol chain new fs inode (.ok ()) fs' { inode' with fileSize := size } ↔
        new = chain.length ∧ ¬vol.EnoughFree fs.next (new - current)) := by
  have hmem := getElem_mem hlonger
  have hused := hchain.ne_zero_of_mem hmem
  have hdrop : chain[current] ∈ chain.drop current := by
    rw [drop_eq_getElem_cons hlonger]
    exact mem_cons_self
  unfold truncateTo
  rcases lt_trichotomy new current with hlt | heq | hgt
  · obtain ⟨r, fs', inode', hshrink, hzero, hrest⟩ := h.fatShrink hchain hlt hlonger.le
    rw [if_pos hlt, hshrink]
    refine ⟨_, _, _, rfl, iff_of_false (fun hlaw => ?_) fun hcond => by omega⟩
    obtain ⟨chain', -, hlength, hsub, hcut⟩ := hlaw.resized rfl
    rw [eq_take_of_length hsub hlength (by omega)] at hcut
    -- the first cluster that was not counted is cut off and stays used
    have hfree := hcut _ hmem fun htake =>
      disjoint_take_drop hchain.links.nodup hlt.le htake hdrop
    have hkept {l : List (BitVec 32)} (hl : l ⊆ chain.take current) :
        cleared fs.next l chain[current] ≠ 0#32 := by
      rw [cleared, if_neg fun hin => disjoint_take_drop hchain.links.nodup le_rfl (hl hin) hdrop]
      exact hused
    rcases Nat.eq_zero_or_pos new with hnew | hnew
    · rw [(hzero hnew).1.next _ (hchain.data _ hmem)] at hfree
      exact hkept (Subset.refl _) hfree
    rw [(hrest (by omega)).2.next _ (hchain.data _ hmem), update_apply] at hfree
    split at hfree
    · exact fatEof_ne_zero _ hfree
    exact hkept ( drop_subset ..) hfree
  · rw [if_neg (by omega), if_neg (by omega)]
    refine ⟨_, _, _, rfl, iff_of_false (fun hlaw => ?_) fun hcond => by omega⟩
    have := (length_of_truncateLaw hlaw (.inl hchain)).1
    omega
  rw [if_neg (by omega), if_pos hgt]
  by_cases henough : vol.EnoughFree fs.next (new - current)
  · have hparts : vol.IsFileChain fs.next inode.firstCluster
        (chain.take current ++ chain.drop current) := by
      rw [take_append_drop]
      exact .inl hchain
    obtain ⟨r, fs', inode', table', added, hgrow, hholds, hadded, hgrown, hzero, -⟩ :=
      h.fatGrow hparts (Nat.sub_pos_of_lt hgt) henough
    rw [hgrow]
    refine ⟨_, _, _, rfl, iff_of_false (fun hlaw => ?_) fun hcond => hcond.2 henough⟩
    obtain ⟨-, hsub⟩ := length_of_truncateLaw hlaw (.inl (hholds.isChain_iff.2 hgrown))
    -- the first cluster that was not counted would be one of those that were free
    have hpos : 0 < added.length := by omega
    have hsame : (chain.take current ++ added)[current]? = chain[current]? := by
      rcases hsub with ⟨l, hl⟩ | ⟨l, hl⟩
      · have heq : (chain.take current ++ added ++ l)[current]? =
            (chain.take current ++ added)[current]? := getElem?_append_left (by simp; omega)
        rw [hl] at heq
        exact heq.symm
      rw [← hl, getElem?_append_left hlonger]
    rw [getElem?_append_right (length_take_le ..), getElem?_eq_getElem hlonger] at hsame
    exact hused (hzero _ (mem_of_getElem? hsame))
  obtain ⟨e, fs', table', hgrow, hholds, hsame⟩ :=
    h.fatGrow_error ((chain.take current).getLast?.getD 0#32) (Nat.sub_pos_of_lt hgt) henough
  have hstays {first : BitVec 32} {l : List (BitVec 32)} (hl : vol.IsChain fs.next first l) :
      vol.IsChain fs'.next first l :=
    hholds.isChain_iff.2 (hl.congr fun c hc => hsame c (hl.ne_zero_of_mem hc))
  rw [hgrow]
  refine ⟨_, _, _, rfl, fun hlaw => ⟨?_, henough⟩, fun hcond => ?_⟩
  · exact (length_of_truncateLaw hlaw (.inl (hstays hchain))).1.symm
  exact ⟨fun _ => ⟨chain, .inl (hstays hchain), hcond.1.symm, .inl (prefix_refl _),
    fun c hc hcut => absurd hc hcut⟩, fun _ _ _ hl _ => hstays hl,
    fun hfew => absurd (enoughFree_zero (by omega)) hfew⟩

end

end FatFs

/-! ## Two files -/

/-- A volume with 16-bit entries. -/
def plainVolume : FatPlain where
  toFatVolume := smallVolume .fat16 5000 (by decide)
  plain := by decide
  mounted := rfl
  clusters_eof := by decide

/-- It is mounted, with the given first entries of the table. -/
def plainFs (entries : List (BitVec 8)) : FatFs where
  superblock :=
    { plainVolume.toFatSuperblock with clusterSize := 512, dataStart := 0, clusterSearchHint := 0 }
  dev := { bytes := fun x => if x < 512 then 0 else entries.getD (x - 512) 0 }

theorem plainFs_holds (entries : List (BitVec 8)) :
    (plainFs entries).Holds plainVolume (plainFs entries).next :=
  ⟨rfl, rfl, fun _ _ => rfl, fun _ _ hlt => absurd (BitVec.lt_def.1 hlt) (Nat.not_lt_zero _)⟩

end Stanix

import Stanix.Fs.Fat.Mount

/-!
# Where the clusters are on the disk

A data cluster is found on the disk by its number, and the number of a cluster by its place. Both are
plain formulas, but `fat_cluster2offset` multiplies two numbers of 32 bits: on a volume of more than
4 GiB the product wraps, and a cluster far behind has the place of one at the front.
`fat_places_iff` says on which volumes the places are those of the format.
-/

namespace Stanix

open BitVec FatMounted

namespace FatMounted

variable {sb : FatMounted} {c : BitVec 32}

/-- Source: `fat_cluster2offset` (`fat.c:39`). The product has 32 bits; the sum is one of an `off_t`,
the type of `data_start`. -/
def fatCluster2offset (sb : FatMounted) (cluster : BitVec 32) : Exec Nat := do
  Exec.assert (2#32 ≤ cluster)
  return ((cluster - 2#32) * sb.clusterSize).toNat + sb.dataStart.toNat

/-- Source: `fat_offset2cluster` (`fat.c:44`). -/
def fatOffset2cluster (sb : FatMounted) (offset : Nat) : Exec (BitVec 32) := do
  Exec.assert (sb.dataStart.toNat ≤ offset)
  return .ofNat 32 ((offset - sb.dataStart.toNat) / sb.clusterSize.toNat + 2)

/-- Where the format puts a cluster. -/
def place (sb : FatMounted) (c : BitVec 32) : Nat :=
  sb.dataStart.toNat + (c.toNat - 2) * sb.clusterSize.toNat

/-- The places of the data clusters are those of the format, each leads back to its cluster, and the
bytes of two clusters are apart. -/
structure PlacesExact (sb : FatMounted) : Prop where
  start : ∀ c, sb.IsData c → sb.fatCluster2offset c = .ok (sb.place c)
  roundTrip : ∀ c, sb.IsData c → sb.fatCluster2offset c >>= sb.fatOffset2cluster = .ok c
  disjoint : ∀ c d, sb.IsData c → sb.IsData d → c ≠ d → ∀ o o', sb.fatCluster2offset c = .ok o →
    sb.fatCluster2offset d = .ok o' →
      o + sb.clusterSize.toNat ≤ o' ∨ o' + sb.clusterSize.toNat ≤ o

theorem fatCluster2offset_eq (hc : 2 ≤ c.toNat) : sb.fatCluster2offset c =
    .ok ((c.toNat - 2) * sb.clusterSize.toNat % 2 ^ 32 + sb.dataStart.toNat) := by
  have hle : 2#32 ≤ c := hc
  rw [fatCluster2offset, Exec.assert_of hle, toNat_mul, toNat_sub_of_le hle]
  rfl

theorem fatOffset2cluster_place (hpos : 0 < sb.clusterSize.toNat) (hc : 2 ≤ c.toNat) :
    sb.fatOffset2cluster (sb.place c) = .ok c := by
  have hle : sb.dataStart.toNat ≤ sb.place c := Nat.le_add_right ..
  rw [fatOffset2cluster, Exec.assert_of hle, place, Nat.add_sub_cancel_left,
    Nat.mul_div_cancel _ hpos, Nat.sub_add_cancel hc, ofNat_toNat, setWidth_eq]
  rfl

theorem place_add_le {d : BitVec 32} (hc : 2 ≤ c.toNat) (hlt : c.toNat < d.toNat) :
    sb.place c + sb.clusterSize.toNat ≤ sb.place d := by
  have := Nat.mul_le_mul_right sb.clusterSize.toNat (show c.toNat - 2 + 1 ≤ d.toNat - 2 by omega)
  rw [Nat.succ_mul] at this
  unfold place
  omega

end FatMounted

/-- **The places of the clusters.** On every volume that can be mounted, the places of the data
clusters are exact exactly if the last cluster starts less than 4 GiB behind the first one. -/
theorem fat_places_iff {disk : ByteStore} {sb : FatMounted}
    (hmount : (fatMount { bytes := disk }).1 = .ok sb) :
    sb.PlacesExact ↔ (sb.dataClusters.toNat - 1) * sb.clusterSize.toNat < 2 ^ 32 := by
  have hsize := (fatMount_ok hmount).2.2.2.2.2.1
  constructor
  · intro h
    by_contra hge
    -- the last cluster, or one of the clusters that 32 bits number
    obtain ⟨c, hc⟩ : ∃ c : BitVec 32, c.toNat = min (sb.dataClusters.toNat + 1) (2 ^ 31) :=
      ⟨.ofNat 32 (min (sb.dataClusters.toNat + 1) (2 ^ 31)), Nat.mod_eq_of_lt (by omega)⟩
    have htwo : sb.dataClusters.toNat ≠ 0 := by
      intro hzero
      simp [hzero] at hge
    have hstart := h.start c ⟨by omega, by omega⟩
    rw [fatCluster2offset_eq (by omega)] at hstart
    have hmod := Except.ok.inj hstart
    unfold place at hmod
    rcases le_total (sb.dataClusters.toNat + 1) (2 ^ 31) with hle | hle
    · grind
    have := Nat.mul_le_mul (show 2 ^ 30 ≤ c.toNat - 2 by omega) hsize
    omega
  intro hlt
  have hstart (c : BitVec 32) (hc : sb.IsData c) :
      sb.fatCluster2offset c = .ok (sb.place c) := by
    have hle : c.toNat - 2 ≤ sb.dataClusters.toNat - 1 := by have := hc.2; omega
    rw [fatCluster2offset_eq hc.1,
      Nat.mod_eq_of_lt ((Nat.mul_le_mul_right _ hle).trans_lt hlt), add_comm]
    rfl
  refine ⟨hstart, fun c hc => ?_, fun c d hc hd hne o o' ho ho' => ?_⟩
  · rw [hstart c hc]
    exact fatOffset2cluster_place (by omega) hc.1
  cases (hstart c hc).symm.trans ho
  cases (hstart d hd).symm.trans ho'
  rcases Nat.lt_or_gt_of_ne (mt eq_of_toNat_eq hne) with hlt | hlt
  · exact .inl (place_add_le hc.1 hlt)
  exact .inr (place_add_le hd.1 hlt)

/-- The clusters of a small disk. -/
theorem fat_places_iff_small :
    ∃ sb, (fatMount { bytes := bootDisk 1 }).1 = .ok sb ∧ sb.PlacesExact := by
  have hmount : (fatMount { bytes := bootDisk 1 }).1 = .ok _ := rfl
  exact ⟨_, hmount, (fat_places_iff hmount).2 (by decide)⟩

/-- The boot sector of a disk of 66043 clusters of 64 KiB. -/
def largeDisk : ByteStore := fun x =>
  ([(12, 2), (13, 128), (14, 1), (16, 1), (34, 129), (36, 5), (37, 2), (510, 0x55),
    (511, 0xaa)].lookup x).getD 0#8

/-- **Two clusters at one place.** The cluster 4 GiB behind the first one has its place. -/
theorem fat_places_wrap :
    ∃ sb, (fatMount { bytes := largeDisk }).1 = .ok sb ∧ sb.IsData 2 ∧ sb.IsData 65538 ∧
      sb.fatCluster2offset 65538 = sb.fatCluster2offset 2 ∧
      sb.fatCluster2offset 65538 >>= sb.fatOffset2cluster = .ok 2 ∧ ¬sb.PlacesExact := by
  refine ⟨_, rfl, by decide, by decide, rfl, rfl, fun h => ?_⟩
  exact absurd (h.roundTrip 65538 (by decide)) (by decide)

end Stanix

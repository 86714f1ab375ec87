import Stanix.Arch.Paging.Entry

/-!
# Changing the flags of an entry

Flags of a page are cleared and added by the bits that `mmu2paging_flags` translates them to. This is
right for the flags that one bit of the hardware stands for. The right to execute is a bit that is
*not* set, and the translation sets that bit for every set of flags without it: so clearing other flags
makes a page executable, and adding other flags takes the right away. `page_flags_iff` says when the
changes do what they are for, and when a page stays executable, or not, through forks and write faults.
-/

namespace Stanix

open List

/-- The flags that one bit of the hardware stands for, with that bit. -/
def plainFlags : List (BitVec 64 × BitVec 64) :=
  [(mmuFlagWrite, pagingFlagWrite), (mmuFlagUser, pagingFlagUser), (mmuFlagUncached, pagingFlagPcd),
    (mmuFlagWriteCombine, pagingFlagPat)]

/-- The flags that say how a page may be used. -/
def useFlags : List (BitVec 64) := mmuFlagExec :: plainFlags.map Prod.fst

/-- A set of these flags. -/
abbrev IsUse (flags : BitVec 64) : Prop := flags &&& ~~~useFlags.foldl (· ||| ·) 0 = 0#64

/-- A flag that is read back from an entry. -/
def Reads (value m : BitVec 64) : Prop := HasFlag (mmuEntryValGetFlags value) m
  deriving Decidable

/-- A bit that is not part of the address. -/
abbrev IsFlagBit (p : BitVec 64) : Prop :=
  (∃ k < 64, p = BitVec.twoPow 64 k) ∧ pagingEntryAddress &&& p = 0#64

/-- The changes of `mmu_entry_clear_flags`, `mmu_entry_or_flags` and `mmu_entry_map_and_or_flags`. -/
inductive FlagChange
  | clear
  | add
  | map (paddr : Nat)

namespace FlagChange

/-- The value that the change stores. -/
def entry (flags value : BitVec 64) : FlagChange → BitVec 64
  | clear => clearFlagsValue flags value
  | add => orFlagsValue flags value
  | map paddr => mapOrValue paddr flags value

/-- The bits of the old value that the change keeps. -/
def kept (value : BitVec 64) : FlagChange → BitVec 64
  | map _ => value &&& pagingEntryFlags
  | _ => value

/-- What the change is for: a flag is there afterwards if it was there before and is not given, or if
one of both. -/
def Want (old given : Prop) : FlagChange → Prop
  | clear => old ∧ ¬ given
  | _ => old ∨ given

/-- When the change does so for the right to execute. -/
def Right (old given : Prop) : FlagChange → Prop
  | clear => given ↔ ¬ old
  | add => given ↔ old
  | map _ => old → given

end FlagChange

/-- What happens to a page of a process: a fork takes the right to write from it, or follows it into
the child, where it has the rights of its segment; a write fault gives the right to write to a page
that nobody else has, or to a copy. Source: `vmm_clone_seg` (`vmm.c:658`) and `vmm_cow` (`vmm.c:96`).
-/
inductive PageEvent
  | fork
  | child (rights : BitVec 64)
  | reuse
  | copy (newPage : Nat)

/-- The entry of the page after an event. -/
def PageEvent.entry (value : BitVec 64) : PageEvent → BitVec 64
  | fork => FlagChange.clear.entry mmuFlagWrite value
  | child rights => mapValue (entryAddress value) (mmuFlagPresent ||| rights)
  | reuse => FlagChange.add.entry mmuFlagWrite value
  | copy newPage => (FlagChange.map newPage).entry mmuFlagWrite value

/-- Whether an event leaves the page executable, whatever it was before. -/
def PageEvent.Leaves : PageEvent → Prop
  | fork => True
  | child rights => HasFlag rights mmuFlagExec
  | reuse | copy _ => False

variable {value flags x y m p : BitVec 64}

theorem hasFlag_and_not {k : Nat} (hk : k < 64) :
    HasFlag (x &&& ~~~y) (BitVec.twoPow 64 k) ↔
      HasFlag x (BitVec.twoPow 64 k) ∧ ¬ HasFlag y (BitVec.twoPow 64 k) := by
  have hbit (z : BitVec 64) : HasFlag z (BitVec.twoPow 64 k) ↔ z.getLsbD k = true := by
    have hne : BitVec.twoPow 64 k ≠ 0#64 := fun h => by
      simpa [hk] using congrArg (BitVec.getLsbD · k) h
    rw [HasFlag, BitVec.and_twoPow]
    split <;> simp_all
  rw [hbit, hbit, hbit, BitVec.getLsbD_and]
  simp [hk]

theorem reads_iff (h : Present value) : Reads value m ↔ HasFlag (paging2mmuFlags value) m := by
  rw [Reads, mmuEntryValGetFlags, if_pos h]

theorem plainFlags_spec (hm : (m, p) ∈ plainFlags) : IsFlagBit p ∧
    (∀ value, Present value → (Reads value m ↔ HasFlag value p)) ∧
    (∀ flags, HasFlag (mmu2pagingFlags flags) p ↔ HasFlag flags m) ∧ pagingEntryFlags &&& p = p := by
  have hbits : ∀ f ∈ plainFlags, IsFlagBit f.2 ∧ pagingEntryFlags &&& f.2 = f.2 := by
    intro f hf
    simp only [plainFlags, mem_cons, not_mem_nil, or_false] at hf
    rcases hf with rfl | rfl | rfl | rfl
    · exact ⟨⟨⟨1, by decide, rfl⟩, by decide⟩, by decide⟩
    · exact ⟨⟨⟨2, by decide, rfl⟩, by decide⟩, by decide⟩
    · exact ⟨⟨⟨4, by decide, rfl⟩, by decide⟩, by decide⟩
    exact ⟨⟨⟨7, by decide, rfl⟩, by decide⟩, by decide⟩
  refine ⟨(hbits _ hm).1, fun value h => ?_, fun flags => ?_, (hbits _ hm).2⟩
  all_goals
    simp only [plainFlags, mem_cons, not_mem_nil, or_false] at hm
  · rw [reads_iff h]
    rcases hm with ⟨rfl, rfl⟩ | ⟨rfl, rfl⟩ | ⟨rfl, rfl⟩ | ⟨rfl, rfl⟩ <;>
      simp +decide [paging2mmuFlags]
  rcases hm with ⟨rfl, rfl⟩ | ⟨rfl, rfl⟩ | ⟨rfl, rfl⟩ | ⟨rfl, rfl⟩ <;>
    simp +decide [mmu2pagingFlags]

theorem reads_exec_iff (h : Present value) :
    Reads value mmuFlagExec ↔ ¬ HasFlag value pagingFlagNoExe := by
  rw [reads_iff h]
  simp +decide [paging2mmuFlags]

theorem noExe_iff : HasFlag (mmu2pagingFlags flags) pagingFlagNoExe ↔ ¬ HasFlag flags mmuFlagExec := by
  simp +decide [mmu2pagingFlags]

namespace FlagChange

theorem hasFlag_entry (c : FlagChange) (hp : IsFlagBit p) : HasFlag (c.entry flags value) p ↔
    c.Want (HasFlag (c.kept value) p) (HasFlag (mmu2pagingFlags flags) p) := by
  obtain ⟨⟨k, hk, rfl⟩, haddr⟩ := hp
  cases c with
  | clear => exact hasFlag_and_not hk
  | add => exact hasFlag_or
  | map paddr =>
    rw [entry, mapOrValue, hasFlag_or, hasFlag_or, or_iff_right (not_hasFlag_and haddr)]
    rfl

theorem hasFlag_kept (c : FlagChange) (hp : pagingEntryFlags &&& p = p) :
    HasFlag (c.kept value) p ↔ HasFlag value p := by
  cases c with
  | map paddr => exact hasFlag_and_of_subset hp
  | _ => exact Iff.rfl

section Change

variable (c : FlagChange) (hv : Present value) (hF : IsUse flags)
include hv hF

theorem present_entry : Present (c.entry flags value) := by
  have hno : ¬ HasFlag (mmu2pagingFlags flags) pagingFlagPresent := by
    rw [mmu2pagingFlags_present, HasFlag, not_not]
    calc flags &&& mmuFlagPresent
        = flags &&& ~~~useFlags.foldl (· ||| ·) 0 &&& mmuFlagPresent := by rw [BitVec.and_assoc]; rfl
      _ = 0#64 := by rw [hF, BitVec.zero_and]
  rw [Present, c.hasFlag_entry (by decide), c.hasFlag_kept (by decide)]
  cases c with
  | clear => exact ⟨hv, hno⟩
  | _ => exact .inl hv

theorem reads_exec_entry : Reads (c.entry flags value) mmuFlagExec ↔ ¬ c.Want
    (HasFlag (c.kept value) pagingFlagNoExe) (¬ HasFlag flags mmuFlagExec) := by
  rw [reads_exec_iff (c.present_entry hv hF), c.hasFlag_entry (by decide), noExe_iff]

theorem readsBack_iff :
    (∀ m ∈ useFlags, (Reads (c.entry flags value) m ↔ c.Want (Reads value m) (HasFlag flags m))) ↔
      c.Right (Reads value mmuFlagExec) (HasFlag flags mmuFlagExec) := by
  have hplain : ∀ f ∈ plainFlags,
      (Reads (c.entry flags value) f.1 ↔ c.Want (Reads value f.1) (HasFlag flags f.1)) := by
    intro f hf
    obtain ⟨hbit, hget, hset, hkeep⟩ := plainFlags_spec hf
    rw [hget _ (c.present_entry hv hF), hget _ hv, c.hasFlag_entry hbit, c.hasFlag_kept hkeep, hset]
  rw [useFlags, forall_mem_cons, forall_mem_map, and_iff_left hplain,
    c.reads_exec_entry hv hF, reads_exec_iff hv]
  have hnone : ¬ HasFlag (value &&& pagingEntryFlags) pagingFlagNoExe := not_hasFlag_and (by decide)
  by_cases hX : HasFlag value pagingFlagNoExe <;> cases c <;> simp [Want, Right, kept, hX, hnone]

end Change

end FlagChange

namespace PageEvent

theorem entry_spec (hv : Present value) (e : PageEvent) :
    Present (e.entry value) ∧ (Reads (e.entry value) mmuFlagExec ↔ e.Leaves) := by
  have huse : IsUse mmuFlagWrite := by decide
  have hexec : ¬ HasFlag mmuFlagWrite mmuFlagExec := by decide
  have hchange (c : FlagChange) := And.intro (c.present_entry hv huse) (c.reads_exec_entry hv huse)
  cases e with
  | fork => exact (hchange .clear).imp_right fun h => h.trans (by simp [FlagChange.Want, Leaves, hexec])
  | child rights =>
    have hpresent : Present (entry value (child rights)) :=
      present_mapValue.2 (hasFlag_or.2 (.inl (by decide)))
    rw [reads_exec_iff hpresent, entry, mapValue, hasFlag_or, noExe_iff, hasFlag_or,
      or_iff_right (not_hasFlag_and (by decide)), not_not,
      or_iff_right (by decide)]
    exact ⟨hpresent, Iff.rfl⟩
  | reuse => exact (hchange .add).imp_right fun h => h.trans (by simp [FlagChange.Want, Leaves, hexec])
  | copy newPage =>
    exact (hchange (.map newPage)).imp_right fun h => h.trans (by simp [FlagChange.Want, Leaves, hexec])

theorem run_iff (P : Prop) (events : List PageEvent) : ∀ {value : BitVec 64}, Present value →
    ((∀ n, Reads ((events.take n).foldl entry value) mmuFlagExec ↔ P) ↔
      (Reads value mmuFlagExec ↔ P) ∧ ∀ e ∈ events, (e.Leaves ↔ P)) := by
  induction events with
  | nil => simp
  | cons e events ih =>
    intro value hv
    obtain ⟨hpresent, hleaves⟩ := entry_spec hv e
    rw [← Nat.and_forall_add_one, forall_mem_cons, ← hleaves, ← ih hpresent]
    rfl

end PageEvent

/-- **Changing the flags of a page.** Clearing flags, adding flags and mapping a copy give the flags
they should exactly when the right to execute is given or was not there, in the way `Right` says. No
fork and no write fault changes whether a page is executable exactly when the pages that are forked
are executable and those that are written are not. -/
theorem page_flags_iff (hv : Present value) (hF : IsUse flags) :
    (∀ c : FlagChange,
      (∀ m ∈ useFlags, (Reads (c.entry flags value) m ↔ c.Want (Reads value m) (HasFlag flags m))) ↔
        c.Right (Reads value mmuFlagExec) (HasFlag flags mmuFlagExec)) ∧
    (∀ events : List PageEvent,
      (∀ n, Reads ((events.take n).foldl PageEvent.entry value) mmuFlagExec ↔
        Reads value mmuFlagExec) ↔
        ∀ e ∈ events, (e.Leaves ↔ Reads value mmuFlagExec)) :=
  ⟨fun c => c.readsBack_iff hv hF, fun events => by
    rw [PageEvent.run_iff _ events hv, and_iff_right Iff.rfl]⟩

/-- A page of code is forked, and stays executable. -/
theorem page_flags_code : Reads (mapValue 0x1000 (mmuFlagPresent ||| mmuFlagExec)) mmuFlagExec ∧
    ∀ n, Reads (([.fork].take n).foldl PageEvent.entry
      (mapValue 0x1000 (mmuFlagPresent ||| mmuFlagExec))) mmuFlagExec ↔
        Reads (mapValue 0x1000 (mmuFlagPresent ||| mmuFlagExec)) mmuFlagExec :=
  ⟨by decide, ((page_flags_iff (by decide) (by decide : IsUse mmuFlagWrite)).2 _).2
    (by simp +decide [PageEvent.Leaves])⟩

/-- A page of data is forked: it loses the right to be written, and becomes executable. -/
theorem page_flags_data : ∃ value, Present value ∧ ¬ Reads value mmuFlagExec ∧
    Reads (FlagChange.clear.entry mmuFlagWrite value) mmuFlagExec ∧
    Reads (PageEvent.fork.entry value) mmuFlagExec :=
  ⟨mapValue 0x1000 (mmuFlagPresent ||| mmuFlagWrite), by decide⟩

end Stanix

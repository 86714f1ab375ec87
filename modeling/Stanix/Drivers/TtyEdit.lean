import Stanix.Drivers.Tty

/-!
# Editing a line

The canonical mode of `kernel/drivers/tty.c` against a reference editor. The line is always the one
of the editor. The echo is right for every character that is `Harmless` (`tty_edits`): `tty_echo`
takes a signal character that is also `VERASE` for an erasure, and reads in front of the line if it
is empty; its loop for `VKILL` returns after one character; and a tab is erased as one or two
columns.
-/

namespace Stanix

open Function List

namespace Tty

/-- The line of the reference editor after a character: an erasure drops the last character, a kill
all of them, and a line that is complete is handed on if `lines` has room for its length. -/
def edited (tty : Tty) (c : BitVec 8) : List (BitVec 8) :=
  match tty.canonLine c with
  | some (_, line) => if 256 ≤ tty.lines.length then line else []
  | none =>
    if isCc c tty.termios.verase then tty.canon.dropLast
    else if isCc c tty.termios.vkill then [] else tty.appended c

/-- The characters that the editor removes. -/
def removed (tty : Tty) (c : BitVec 8) : List (BitVec 8) :=
  if isCc c tty.termios.verase then tty.canon.getLast?.toList
  else if isCc c tty.termios.vkill then tty.canon else []

/-- The line when `tty_input` calls `tty_echo`, if it does. -/
def echoLine (tty : Tty) (c : BitVec 8) : Option (List (BitVec 8)) :=
  if (tty.termios.signalOf c).isSome then some tty.canon
  else if isCc c tty.termios.verase then if tty.canon = [] then none else some tty.canon
  else if isCc c tty.termios.vkill then some tty.canon
  else if isCc c tty.termios.veof ∨ 512 ≤ tty.canon.length then none
  else some (tty.canon ++ [c])

/-- `tty_echo` reads the last character of the line. -/
def EchoReads (termios : Termios) (c : BitVec 8) : Prop :=
  termios.echo ∧ c ≠ charNl ∧ c ≠ 9 ∧ isCc c termios.verase ∧ termios.echoe ∧ termios.icanon

/-- Then it erases that character, or the byte in front of an empty line, on which the echo does not
depend otherwise. -/
theorem ttyEcho_reads (screen : TtyScreen) (termios : Termios) (before : BitVec 8)
    (canon : List (BitVec 8)) (c : BitVec 8) :
    (EchoReads termios c → screen.ttyEcho termios before canon c =
      screen.ttyErase termios (canon.getLast?.getD before)) ∧
    (¬EchoReads termios c → ∀ before', screen.ttyEcho termios before' canon c =
      screen.ttyEcho termios before canon c) := by
  unfold TtyScreen.ttyEcho EchoReads
  refine ⟨fun ⟨hecho, hnl, htab, herase⟩ => ?_, fun h before' => ?_⟩
  · rw [if_neg fun hc => hnl hc.1, if_pos hecho, if_neg (not_or.2 ⟨hnl, htab⟩), if_pos herase]
  split_ifs <;> first | rfl | grind

/-- The columns of the echo of a character, for a tab of `tab` columns. -/
def echoColumns (tab : Nat) (termios : Termios) (c : BitVec 8) : Nat :=
  if c = 9 then tab else if iscntrl c ∧ termios.echoctl then 2 else 1

/-- The columns that `tty_erase` erases. -/
def eraseColumns (termios : Termios) (c : BitVec 8) : Nat :=
  if iscntrl c ∧ termios.echoctl then 2 else 1

/-- What is asked of a character `c` that the mappings give: the line is that of the editor, the
echo looks at characters of the line, and with `ECHO`, `ECHOE` and `ECHOK` the columns of the
characters removed are erased. -/
def Edits (tab : Nat) (tty : Tty) (c : BitVec 8) (tty' : Tty) : Prop :=
  tty'.canon = (if (tty.termios.signalOf c).isSome then tty.canon else tty.edited c) ∧
  (∀ line, tty.echoLine c = some line → EchoReads tty.termios c → line ≠ []) ∧
  (tty.termios.echo → tty.termios.echoe → tty.termios.echok → tty.termios.signalOf c = none →
    tty.removed c ≠ [] → ∃ n, ((tty.removed c).map (echoColumns tab tty.termios)).sum ≤ n ∧
      tty'.screen = (fun screen => screen.rubout tty.termios)^[n] tty.screen)

/-- A call in the canonical mode returns, with the character edited as asked. -/
def EditsCall (tab : Nat) (tty : Tty) : TtyCall → Prop
  | .input c => tty.termios.icanon → ∀ c', tty.termios.translate c = some c' →
    ∃ tty', tty.ttyInput c = .ok tty' ∧ Edits tab tty c' tty'
  | _ => True

/-- The echo of a signal does not erase on an empty line, and what is removed takes no more columns
than are erased for its last character, by a character that is echoed so. -/
def Harmless (tab : Nat) (tty : Tty) : TtyCall → Prop
  | .input c => ∀ c', tty.termios.translate c = some c' →
    ((tty.termios.signalOf c').isSome → EchoReads tty.termios c' → tty.canon ≠ []) ∧
    (tty.termios.signalOf c' = none → ∀ last ∈ (tty.removed c').getLast?, c' ≠ charNl ∧ c' ≠ 9 ∧
      ((tty.removed c').map (echoColumns tab tty.termios)).sum ≤ eraseColumns tty.termios last)
  | _ => True

variable {tty : Tty} {c : BitVec 8}

theorem ttyCanonSendLine_canon (h : tty.inputBuffer.Valid) (cause : LineCause) :
    ∃ tty', tty.ttyCanonSendLine cause = .ok tty' ∧
      tty'.canon = if 256 ≤ tty.lines.length then tty.canon else [] := by
  obtain ⟨ring, screen, -, -, hsend⟩ := ttyCanonSendLine_spec h cause
  refine ⟨_, hsend, ?_⟩
  split <;> rfl

/-- An erasure is made of `rubout`s. -/
theorem ttyErase_eq (screen : TtyScreen) (termios : Termios) : screen.ttyErase termios c =
    (fun screen => screen.rubout termios)^[eraseColumns termios c] screen := by
  unfold TtyScreen.ttyErase eraseColumns
  split <;> rfl

theorem ttyEcho_removed (hicanon : tty.termios.icanon) (hecho : tty.termios.echo)
    (hechoe : tty.termios.echoe) (hechok : tty.termios.echok) {last : BitVec 8}
    (hlast : last ∈ (tty.removed c).getLast?) (hnl : c ≠ charNl) (htab : c ≠ 9) :
    tty.screen.ttyEcho tty.termios tty.canonBefore tty.canon c =
      (fun screen => screen.rubout tty.termios)^[eraseColumns tty.termios last] tty.screen := by
  rw [← ttyErase_eq]
  unfold removed at hlast
  unfold TtyScreen.ttyEcho
  split_ifs at hlast with herase hkill
  · cases hcanon : tty.canon.getLast? with
    | none => simp [hcanon] at hlast
    | some x => simp_all
  · simp_all
  cases hlast

/-- One character, in the canonical mode. -/
theorem ttyCanonInput_canon (h : tty.inputBuffer.Valid) (c : BitVec 8) :
    ∃ tty', tty.ttyCanonInput c = .ok tty' ∧ tty'.canon = tty.edited c ∧
      (tty.removed c ≠ [] →
        tty'.screen = tty.screen.ttyEcho tty.termios tty.canonBefore tty.canon c) := by
  unfold ttyCanonInput edited canonLine removed
  by_cases herase : isCc c tty.termios.verase
  · simp only [herase, true_or, if_true]
    split_ifs with hpos
    · exact ⟨_, rfl, rfl, fun _ => rfl⟩
    have hnil : tty.canon = [] := by simpa using hpos
    exact ⟨tty, rfl, by simp [hnil], by simp [hnil]⟩
  by_cases hkill : isCc c tty.termios.vkill
  · simp only [herase, hkill, or_true, if_true]
    exact ⟨_, rfl, rfl, fun _ => rfl⟩
  simp only [herase, hkill, or_self]
  by_cases heof : isCc c tty.termios.veof
  · simp only [heof, if_true]
    obtain ⟨tty', hsend, hcanon⟩ := ttyCanonSendLine_canon h .eof
    exact ⟨tty', hsend, hcanon, fun h => absurd rfl h⟩
  simp only [heof]
  obtain ⟨screen, happend⟩ := appended_eq tty c
  rw [happend]
  by_cases hend : c = charNl ∨ isCc c tty.termios.veol
  · rw [if_pos hend, if_pos hend]
    obtain ⟨tty', hsend, hcanon⟩ := ttyCanonSendLine_canon
      (show { tty with canon := tty.appended c, screen }.inputBuffer.Valid from h) .newline
    exact ⟨tty', hsend, hcanon, fun h => absurd rfl h⟩
  rw [if_neg hend, if_neg hend]
  exact ⟨_, rfl, rfl, fun h => absurd rfl h⟩

/-- **A character** that is harmless is edited and echoed as asked. -/
theorem editsCall_of_harmless (hring : tty.inputBuffer.Valid) {tab : Nat} {call : TtyCall}
    (h : Harmless tab tty call) : EditsCall tab tty call := by
  cases call with
  | input c =>
    intro hicanon c' hc
    obtain ⟨hempty, hcolumns⟩ := h c' hc
    unfold ttyInput Edits echoLine
    rw [hc]
    dsimp only
    cases hsignal : tty.termios.signalOf c' with
    | some signal =>
      refine ⟨_, rfl, rfl, fun line hline hreads => ?_, fun _ _ _ hnone => by cases hnone⟩
      cases hline
      exact hempty (by rw [hsignal]; rfl) hreads
    | none => ?_
    rw [if_pos hicanon]
    obtain ⟨tty', hinput, hcanon, hscreen⟩ := ttyCanonInput_canon hring c'
    refine ⟨tty', hinput, hcanon, fun line hline hreads => ?_, fun hecho herase hkill _ hne => ?_⟩
    · rintro rfl
      simp [hreads.2.2.2.1] at hline
    obtain ⟨last, hlast⟩ := Option.ne_none_iff_exists'.1 (getLast?_eq_none_iff.not.2 hne)
    obtain ⟨hnl, htab, hsum⟩ := hcolumns hsignal last hlast
    exact ⟨_, hsum, (hscreen hne).trans
      (ttyEcho_removed hicanon hecho herase hkill hlast hnl htab)⟩
  | read | setTermios => trivial

/-- **Line editing.** In a run of characters, reads and changes of the mode and of the control
characters, in which every character is harmless, every character typed in the canonical mode is
edited as the reference editor does, echoed with a look at the line only, and erased with all its
columns. -/
theorem tty_edits (canonBefore : BitVec 8) (tab : Nat) (calls : List TtyCall)
    (h : CallsAll step (Harmless tab) (ttyRegister canonBefore) calls) :
    CallsAll step (EditsCall tab) (ttyRegister canonBefore) calls := by
  have hstart := consistent_ttyRegister canonBefore
  generalize ttyRegister canonBefore = tty at h hstart ⊢
  induction calls generalizing tty with
  | nil => trivial
  | cons call calls ih =>
    refine ⟨editsCall_of_harmless hstart.ring h.1, fun r tty' hstep => ih tty' (h.2 r _ hstep) ?_⟩
    obtain ⟨r', tty'', hstep', hcons, -⟩ := step_sound hstart call
    cases hstep'.symm.trans hstep
    exact hcons

/-- An `a` is typed and erased. -/
theorem tty_edits_one : CallsAll step (EditsCall 8) (ttyRegister 0) [.input 97, .input 127] :=
  tty_edits 0 8 _ (.cons rfl (fun c' hc => by
    cases hc
    exact ⟨fun h => (by cases h), fun _ _ h => by cases h⟩) (.cons rfl (fun c' hc => by
    cases hc
    exact ⟨fun h => (by cases h), fun _ _ h => by cases h; decide⟩) trivial))

/-- The kill character after `ab` erases one column. With `VINTR` and `VERASE` equal, an interrupt
on an empty line reads in front of it. -/
theorem tty_edits_kill :
    (runOps step (ttyRegister 0) [.input 97, .input 98, .input 21]).okAnd
      (fun r => r.2.canon == [] && r.2.screen.out == [97, 98, 8, 32, 8]) = true ∧
    ∃ rs tty, runOps step (ttyRegister 0)
      [.setTermios { (ttyRegister 0).termios with vintr := 127 } none] = .ok (rs, tty) ∧
      ¬ EditsCall 8 tty (.input 127) := by
  refine ⟨by decide +kernel, _, _, rfl, fun h => ?_⟩
  obtain ⟨_, -, -, hlook, -⟩ := h rfl 127 rfl
  exact hlook [] rfl ⟨rfl, by decide, by decide, rfl, rfl, rfl⟩ rfl

end Tty

end Stanix

import Stanix.Klib.Ringbuf

/-!
# Terminals

`kernel/drivers/tty.c`: the line discipline of a terminal. In canonical mode the characters typed are
gathered in a line that can be edited; at its end the line goes to the input ring, and its length to
the array `lines`, from which a read takes how much it may return. In the other mode each character
goes to the ring at once. The two modes may be changed at any time.

The bookkeeping is right exactly if each line finds room for its length and for a byte of it
(`LineFits`, `tty_canonical_iff`).

Each call has the lock of the terminal; a read that sleeps tries again, from the start, when it is
woken. The buffers of the callers do not fault.
-/

namespace Stanix

open Ringbuffer List

/-- The flags and control characters of `struct termios` that the driver uses. -/
structure Termios where
  -- `c_iflag`
  inlcr : Bool := false
  igncr : Bool := false
  icrnl : Bool := false
  iuclc : Bool := false
  istrip : Bool := false
  imaxbel : Bool := false
  -- `c_oflag`
  opost : Bool := false
  olcuc : Bool := false
  onlcr : Bool := false
  ocrnl : Bool := false
  onocr : Bool := false
  onlret : Bool := false
  -- `c_lflag`
  isig : Bool := false
  icanon : Bool := false
  echo : Bool := false
  echoe : Bool := false
  echok : Bool := false
  echonl : Bool := false
  echoctl : Bool := false
  -- `c_cc`
  vintr : BitVec 8 := 0
  vquit : BitVec 8 := 0
  vsusp : BitVec 8 := 0
  verase : BitVec 8 := 0
  vkill : BitVec 8 := 0
  veof : BitVec 8 := 0
  veol : BitVec 8 := 0
  vmin : BitVec 8 := 0
  deriving DecidableEq

/-- The output side of a terminal: the column and what was given to the driver below. -/
structure TtyScreen where
  column : Nat := 0
  out : List (BitVec 8) := []

/-- The signals that are sent from the keyboard. -/
inductive TtySignal
  | int
  | quit
  | tstp
  deriving DecidableEq

/-- Why a line is recorded: `VEOF` or the end of a line was typed, or the mode was changed. -/
inductive LineCause
  | eof
  | newline
  | leaving
  | entering
  deriving DecidableEq

/-- A length that was recorded, with its cause and with the length of the line. -/
structure LineRecord where
  cause : LineCause
  pending : Nat
  length : Nat

/-- A terminal. `canon` is `canon_buf[0 .. canon_index)`, `canonBefore` the byte in front of that
array, and `lines` is `lines[0 .. lines_count)`. The last four fields are a log: the signals sent,
the lengths recorded, the bytes put into the ring and the bytes that reads returned. -/
structure Tty where
  inputBuffer : Ringbuffer
  canon : List (BitVec 8)
  canonBefore : BitVec 8
  termios : Termios
  screen : TtyScreen
  lines : List Nat
  unplugged : Bool
  signals : List TtySignal
  recorded : List LineRecord
  put : List (BitVec 8)
  returned : List (BitVec 8)

/-- A call: a character typed, a read, or a new mode, which the driver below may refuse. -/
inductive TtyCall
  | input (c : BitVec 8)
  | read (count : Nat) (nonblock : Bool)
  | setTermios (new : Termios) (refusal : Option Errno)

/-- The line feed, `'\n'`. -/
def charNl : BitVec 8 := 10

/-- The carriage return, `'\r'`. -/
def charCr : BitVec 8 := 13

/-- Source: `iscntrl` of the C locale. -/
def iscntrl (c : BitVec 8) : Bool := c.toNat < 32 || c.toNat = 127

/-- A comparison with a control character: a `char` is signed and an element of `c_cc` is not. -/
def isCc (c cc : BitVec 8) : Bool := c.toInt = cc.toNat

/-! ## Output -/

namespace TtyScreen

/-- The end of `tty_output` (`tty.c:41`): the column, and the call of the driver below. -/
def out1 (screen : TtyScreen) (termios : Termios) (c : BitVec 8) : TtyScreen where
  column := if c = charCr ∨ c = charNl ∧ termios.onlret then 0 else screen.column + 1
  out := screen.out ++ [c]

/-- `tty_output` (`tty.c:29`) from the test of `OCRNL` on. -/
def outputCr (screen : TtyScreen) (termios : Termios) (c : BitVec 8) : TtyScreen :=
  let c := if termios.opost ∧ termios.ocrnl ∧ c = charCr then charNl else c
  if termios.opost ∧ termios.onocr ∧ c = charCr ∧ screen.column = 0 then screen
  else screen.out1 termios c

/-- Source: `tty_output` (`tty.c:15`). Its call of itself is for a carriage return, on which the
first two mappings do nothing. -/
def ttyOutput (screen : TtyScreen) (termios : Termios) (c : BitVec 8) : TtyScreen :=
  let c := if termios.opost ∧ termios.olcuc ∧ 97 ≤ c.toNat ∧ c.toNat ≤ 122 then c - 32 else c
  let screen :=
    if termios.opost ∧ termios.onlcr ∧ c = charNl then screen.outputCr termios charCr else screen
  screen.outputCr termios c

/-- Source: `tty_max_bell` (`tty.c:49`). -/
def ttyMaxBell (screen : TtyScreen) (termios : Termios) : TtyScreen :=
  if termios.imaxbel then screen.ttyOutput termios 7 else screen

/-- A character is overwritten: back, a blank, and back (`tty.c:88`). -/
def rubout (screen : TtyScreen) (termios : Termios) : TtyScreen :=
  ((screen.ttyOutput termios 8).ttyOutput termios 32).ttyOutput termios 8

/-- Source: `tty_erase` (`tty.c:80`). -/
def ttyErase (screen : TtyScreen) (termios : Termios) (c : BitVec 8) : TtyScreen :=
  let screen := if iscntrl c ∧ termios.echoctl then screen.rubout termios else screen
  screen.rubout termios

/-- Source: `tty_echo` (`tty.c:94`). The loop for `VKILL` returns in its first round, and `VERASE`
reads the byte in front of the array if the line is empty. -/
def ttyEcho (screen : TtyScreen) (termios : Termios) (canonBefore : BitVec 8)
    (canon : List (BitVec 8)) (c : BitVec 8) : TtyScreen :=
  if c = charNl ∧ termios.echonl ∧ termios.icanon then screen.ttyOutput termios c
  else if termios.echo then
    if c = charNl ∨ c = 9 then screen.ttyOutput termios c
    else if isCc c termios.verase ∧ termios.echoe ∧ termios.icanon then
      screen.ttyErase termios (canon.getLast?.getD canonBefore)
    else if isCc c termios.vkill ∧ termios.echok ∧ termios.icanon then
      match canon.getLast? with
      | some last => screen.ttyErase termios last
      | none => screen
    else if iscntrl c ∧ termios.echoctl then
      (screen.ttyOutput termios 94).ttyOutput termios (c + 65 - 1)
    else screen.ttyOutput termios c
  else screen

end TtyScreen

namespace Tty

/-- `tty_max_bell`, on the whole terminal. -/
def ttyMaxBell (tty : Tty) : Tty :=
  { tty with screen := tty.screen.ttyMaxBell tty.termios }

/-- `tty_echo`, on the whole terminal. -/
def ttyEcho (tty : Tty) (c : BitVec 8) : Tty :=
  { tty with screen := tty.screen.ttyEcho tty.termios tty.canonBefore tty.canon c }

/-! ## Input -/

/-- Source: `tty_canon_send_line` (`tty.c:57`). The line is written from kernel memory. -/
def ttyCanonSendLine (tty : Tty) (cause : LineCause) : Exec Tty :=
  match tty.inputBuffer.ringbufferWrite tty.canon with
  | (.error _, _) => .error .unreachable
  | (.ok ret, inputBuffer) =>
    let tty := { tty with inputBuffer, put := tty.put ++ tty.canon.take ret }
    let tty := if ret < tty.canon.length then tty.ttyMaxBell else tty
    if tty.lines.length ≥ 256 then .ok tty.ttyMaxBell
    else .ok { tty with
      lines := tty.lines ++ [ret]
      recorded := ⟨cause, tty.canon.length, ret⟩ :: tty.recorded
      canon := [] }

end Tty

/-- The mappings of `tty_input` (`tty.c:118`); a carriage return may be ignored. -/
def Termios.translate (termios : Termios) (c : BitVec 8) : Option (BitVec 8) :=
  let c := if termios.inlcr ∧ c = charNl then charCr else c
  if termios.igncr ∧ c = charCr then none
  else
    let c := if termios.icrnl ∧ c = charCr then charNl else c
    let c := if termios.iuclc ∧ 65 ≤ c.toNat ∧ c.toNat ≤ 90 then c + 32 else c
    some (if termios.istrip then c &&& 0x7f else c)

/-- The signal that `tty_input` (`tty.c:140`) sends for a character. -/
def Termios.signalOf (termios : Termios) (c : BitVec 8) : Option TtySignal :=
  if termios.isig then
    if isCc c termios.vintr then some .int
    else if isCc c termios.vquit then some .quit
    else if isCc c termios.vsusp then some .tstp
    else none
  else none

namespace Tty

/-- The line after a character of `tty_input` (`tty.c:180`), if there is room for it. -/
def appended (tty : Tty) (c : BitVec 8) : List (BitVec 8) :=
  if tty.canon.length ≥ 512 then tty.canon else tty.canon ++ [c]

/-- The canonical mode of `tty_input` (`tty.c:164`). -/
def ttyCanonInput (tty : Tty) (c : BitVec 8) : Exec Tty :=
  if isCc c tty.termios.verase then
    if tty.canon.length > 0 then .ok { tty.ttyEcho c with canon := tty.canon.dropLast }
    else .ok tty
  else if isCc c tty.termios.vkill then .ok { tty.ttyEcho c with canon := [] }
  else if isCc c tty.termios.veof then tty.ttyCanonSendLine .eof
  else
    let tty :=
      if tty.canon.length ≥ 512 then tty.ttyMaxBell
      else { tty with canon := tty.canon ++ [c] }.ttyEcho c
    if c = charNl ∨ isCc c tty.termios.veol then tty.ttyCanonSendLine .newline else .ok tty

/-- The other mode of `tty_input` (`tty.c:195`). -/
def ttyRawInput (tty : Tty) (c : BitVec 8) : Exec Tty :=
  let tty := tty.ttyEcho c
  match tty.inputBuffer.ringbufferWrite [c] with
  | (.error _, _) => .error .unreachable
  | (.ok ret, inputBuffer) =>
    let tty := { tty with inputBuffer, put := tty.put ++ [c].take ret }
    .ok (if ret = 0 then tty.ttyMaxBell else tty)

/-- Source: `tty_input` (`tty.c:116`). -/
def ttyInput (tty : Tty) (c : BitVec 8) : Exec Tty :=
  match tty.termios.translate c with
  | none => .ok tty
  | some c =>
    match tty.termios.signalOf c with
    | some signal => .ok { tty.ttyEcho c with signals := signal :: tty.signals }
    | none => if tty.termios.icanon then tty.ttyCanonInput c else tty.ttyRawInput c

/-! ## Reading -/

/-- Source: `tty_end_read_sleep` (`tty.c:226`). -/
def ttyEndReadSleep (tty : Tty) : Bool :=
  tty.unplugged ||
    if tty.termios.icanon then 0 < tty.lines.length
    else tty.termios.vmin.toNat ≤ tty.inputBuffer.readAvailable

/-- What a read returns if there is nothing to return (`tty.c:254`). -/
def nothing (tty : Tty) : Except Errno (List (BitVec 8)) :=
  if tty.unplugged then .ok [] else .error .again

/-- Source: `tty_raw_read` (`tty.c:243`): `none` if the task goes to sleep. -/
def ttyRawRead (tty : Tty) (count : Nat) (nonblock : Bool) :
    Option (Except Errno (List (BitVec 8))) × Tty :=
  if ¬nonblock ∧ ¬tty.ttyEndReadSleep then (none, tty)
  else if tty.termios.icanon then
    match tty.lines with
    | [] => (some tty.nothing, tty)
    | line :: rest =>
      match tty.inputBuffer.ringbufferRead (if count > line then line else count) with
      | (.error e, inputBuffer) => (some (.error e), { tty with inputBuffer })
      | (.ok data, inputBuffer) =>
        let left := line - data.length
        (some (.ok data), { tty with
          inputBuffer
          lines := if left = 0 then rest else left :: rest
          returned := tty.returned ++ data })
  else if tty.inputBuffer.readAvailable < tty.termios.vmin.toNat then (some tty.nothing, tty)
  else
    match tty.inputBuffer.ringbufferRead count with
    | (.error e, inputBuffer) => (some (.error e), { tty with inputBuffer })
    | (.ok data, inputBuffer) =>
      (some (.ok data), { tty with inputBuffer, returned := tty.returned ++ data })

/-! ## Changes of the mode -/

/-- The canonical mode is entered (`tty.c:437`): what the ring holds becomes a line. -/
def enterCanonical (tty : Tty) : Tty :=
  let available := tty.inputBuffer.readAvailable
  if available > 0 then
    { tty with
      lines := [available]
      recorded := ⟨.entering, available, available⟩ :: tty.recorded
      canon := [] }
  else { tty with lines := [], canon := [] }

/-- The canonical mode is left (`tty.c:448`): the line that was begun is sent. -/
def leaveCanonical (tty : Tty) : Exec Tty :=
  if tty.canon.length > 0 then tty.ttyCanonSendLine .leaving else .ok tty

/-- Source: `tty_termios_update` (`tty.c:431`). -/
def ttyTermiosUpdate (tty : Tty) (new : Termios) (refusal : Option Errno) :
    Exec (Except Errno Unit × Tty) :=
  match refusal with
  | some e => .ok (.error e, tty)
  | none => do
    let tty := if new.icanon ∧ ¬tty.termios.icanon then tty.enterCanonical else tty
    let tty ← if ¬new.icanon ∧ tty.termios.icanon then tty.leaveCanonical else .ok tty
    .ok (.ok (), { tty with termios := new })

/-- Source: `tty_register` (`tty.c:573`), of a terminal in zeroed memory. -/
def ttyRegister (canonBefore : BitVec 8) : Tty where
  inputBuffer := .init 4096
  canon := []
  canonBefore
  termios := {
    veof := 4, veol := 0, verase := 127, vintr := 3, vkill := 21, vquit := 28, vsusp := 26, vmin := 1
    icrnl := true, imaxbel := true, opost := true, onlcr := true
    echonl := true, echok := true, echoe := true, echoctl := true, echo := true, icanon := true
    isig := true }
  screen := {}
  lines := []
  unplugged := false
  signals := []
  recorded := []
  put := []
  returned := []

/-- A call, with what a read returns. -/
def step (tty : Tty) : TtyCall → Exec (Option (Except Errno (List (BitVec 8))) × Tty)
  | .input c => do
    let tty ← tty.ttyInput c
    .ok (none, tty)
  | .read count nonblock => .ok (tty.ttyRawRead count nonblock)
  | .setTermios new refusal => do
    let r ← tty.ttyTermiosUpdate new refusal
    .ok (none, r.2)

/-! ## Properties -/

/-- What the driver keeps in every run: the ring is sound, no length was recorded past the end of
`lines`, and the bytes put into the ring are those returned and those that wait, in order. -/
structure Consistent (tty : Tty) : Prop where
  ring : tty.inputBuffer.Valid
  linesCount : tty.lines.length ≤ 256
  put : tty.put = tty.returned ++ tty.inputBuffer.content

/-- The lengths in `lines` add up to the bytes in the ring while the mode is canonical, and a length
of zero was only recorded for `VEOF` on an empty line. -/
structure Counted (tty : Tty) : Prop where
  linesSum : tty.termios.icanon → tty.lines.sum = tty.inputBuffer.readAvailable
  emptyLine : ∀ r ∈ tty.recorded, r.length = 0 → r.cause = .eof ∧ r.pending = 0

/-- The bookkeeping of the canonical mode. Each byte put into the ring was returned by one read or is
still in the ring; one read for each length in `lines` returns all of the latter. -/
structure Sound (tty : Tty) : Prop where
  linesCount : tty.termios.icanon → tty.lines.length ≤ 256
  linesSum : tty.termios.icanon → tty.lines.sum = tty.inputBuffer.readAvailable
  emptyLine : ∀ r ∈ tty.recorded, r.length = 0 → r.cause = .eof ∧ r.pending = 0
  put : tty.put = tty.returned ++ tty.inputBuffer.content
  returned : tty.termios.icanon → ∃ rs tty',
    runOps step tty (tty.lines.map fun n => .read n true) = .ok (rs, tty') ∧ tty'.returned = tty.put

/-- The line that a character sends in the canonical mode, with the cause. -/
def canonLine (tty : Tty) (c : BitVec 8) : Option (LineCause × List (BitVec 8)) :=
  if isCc c tty.termios.verase ∨ isCc c tty.termios.vkill then none
  else if isCc c tty.termios.veof then some (.eof, tty.canon)
  else if c = charNl ∨ isCc c tty.termios.veol then some (.newline, tty.appended c)
  else none

/-- The line that a character typed sends, with the cause. -/
def sentLine (tty : Tty) (c : BitVec 8) : Option (LineCause × List (BitVec 8)) :=
  match tty.termios.translate c with
  | none => none
  | some c =>
    if (tty.termios.signalOf c).isSome ∨ ¬tty.termios.icanon then none else tty.canonLine c

/-- A line is empty, or there is room for its length and for a byte of it, or there is room for
neither. -/
def Fits (tty : Tty) (line : List (BitVec 8)) : Prop :=
  line = [] ∨ (tty.lines.length < 256 ↔ 0 < tty.inputBuffer.writeAvailable)

/-- The line that a call sends fits. When the canonical mode is left, only a length that is recorded
needs room in the ring. -/
def LineFits (tty : Tty) : TtyCall → Prop
  | .input c => ∀ cause line, tty.sentLine c = some (cause, line) → tty.Fits line
  | .read _ _ => True
  | .setTermios new refusal =>
    refusal = none ∧ ¬new.icanon ∧ tty.termios.icanon ∧ tty.canon ≠ [] ∧ tty.lines.length < 256 →
      0 < tty.inputBuffer.writeAvailable

variable {tty : Tty}

/-! ## Sending a line -/

/-- A line is appended to the ring as far as there is room; its length is recorded, and a new line
begun, if there is room for the length. -/
theorem ttyCanonSendLine_spec (h : tty.inputBuffer.Valid) (cause : LineCause) :
    ∃ ring screen, ring.Valid ∧
      ring.content = tty.inputBuffer.content ++
        tty.canon.take tty.inputBuffer.writeAvailable ∧
      tty.ttyCanonSendLine cause = .ok (
        let sent := { tty with
          inputBuffer := ring
          screen
          put := tty.put ++ tty.canon.take tty.inputBuffer.writeAvailable }
        if 256 ≤ tty.lines.length then sent
        else { sent with
          lines := tty.lines ++ [min tty.canon.length tty.inputBuffer.writeAvailable]
          recorded := ⟨cause, tty.canon.length,
            min tty.canon.length tty.inputBuffer.writeAvailable⟩ :: tty.recorded
          canon := [] }) := by
  obtain ⟨ring, hwrite, hvalid, hcontent, -⟩ := write_spec h tty.canon
  unfold ttyCanonSendLine
  rw [hwrite]
  dsimp only
  rw [take_written]
  by_cases hlines : 256 ≤ tty.lines.length
  · split
    · exact ⟨ring, _, hvalid, hcontent, by simp only [ttyMaxBell, ge_iff_le, if_pos hlines]; rfl⟩
    exact ⟨ring, _, hvalid, hcontent, rfl⟩
  split
  · exact ⟨ring, _, hvalid, hcontent, by simp only [ttyMaxBell, ge_iff_le, if_neg hlines]; rfl⟩
  exact ⟨ring, tty.screen, hvalid, hcontent, rfl⟩

/-- What sending a line does to the bookkeeping: the ring keeps its order, the sum is wrong if a
length is missing for bytes that went to the ring, and a length of zero is wrong for a line that is
not empty. -/
theorem ttyCanonSendLine_counts (h : tty.Consistent) {cause : LineCause}
    (hcause : tty.canon = [] → cause = .eof) :
    ∃ tty', tty.ttyCanonSendLine cause = .ok tty' ∧ tty'.Consistent ∧
      tty'.termios = tty.termios ∧
      (tty.lines.sum = tty.inputBuffer.readAvailable →
        (tty'.lines.sum = tty'.inputBuffer.readAvailable ↔
          (256 ≤ tty.lines.length → tty.canon ≠ [] → tty.inputBuffer.writeAvailable = 0))) ∧
      ((∀ r ∈ tty.recorded, r.length = 0 → r.cause = .eof ∧ r.pending = 0) →
        ((∀ r ∈ tty'.recorded, r.length = 0 → r.cause = .eof ∧ r.pending = 0) ↔
          (tty.lines.length < 256 → tty.canon ≠ [] → 0 < tty.inputBuffer.writeAvailable))) := by
  obtain ⟨ring, screen, hvalid, hcontent, hsend⟩ := ttyCanonSendLine_spec h.ring cause
  have havail : ring.readAvailable = tty.inputBuffer.readAvailable +
      min tty.canon.length tty.inputBuffer.writeAvailable := by
    rw [← ring.length_content, hcontent, length_append, length_take,
      tty.inputBuffer.length_content, min_comm]
  have hput : tty.put ++ tty.canon.take tty.inputBuffer.writeAvailable =
      tty.returned ++ ring.content := by
    rw [h.put, hcontent, append_assoc]
  have hempty : tty.canon ≠ [] ↔ 0 < tty.canon.length := length_pos_iff.symm
  refine ⟨_, hsend, ?_⟩
  by_cases hlines : 256 ≤ tty.lines.length
  · rw [if_pos hlines]
    refine ⟨⟨hvalid, h.linesCount, hput⟩, rfl, fun hsum => ?_, fun hrec => ?_⟩
    · grind
    exact ⟨fun _ hlt => absurd hlt (by omega), fun _ => hrec⟩
  rw [if_neg hlines]
  refine ⟨⟨hvalid, ?_, hput⟩, rfl, fun hsum => ?_, fun hrec => ?_⟩
  · simp only [length_append, length_singleton]
    omega
  · grind
  simp only [forall_mem_cons, hempty]
  constructor
  · grind
  grind

/-! ## One call -/

theorem appended_eq (tty : Tty) (c : BitVec 8) : ∃ screen,
    (if tty.canon.length ≥ 512 then tty.ttyMaxBell
      else { tty with canon := tty.canon ++ [c] }.ttyEcho c) =
    { tty with canon := tty.appended c, screen } := by
  unfold appended
  split
  · exact ⟨_, rfl⟩
  exact ⟨_, rfl⟩

/-- What a character does in the canonical mode: it changes nothing but the line and the screen, or
it sends a line. -/
theorem ttyCanonInput_cases (tty : Tty) (c : BitVec 8) :
    (tty.canonLine c = none ∧ ∃ canon screen,
      tty.ttyCanonInput c = .ok { tty with canon, screen }) ∨
    (∃ cause line screen, tty.canonLine c = some (cause, line) ∧ (line = [] → cause = .eof) ∧
      tty.ttyCanonInput c = { tty with canon := line, screen }.ttyCanonSendLine cause) := by
  unfold canonLine ttyCanonInput
  by_cases herase : isCc c tty.termios.verase
  · rw [if_pos herase, if_pos (.inl herase)]
    split
    · exact .inl ⟨rfl, _, _, rfl⟩
    exact .inl ⟨rfl, _, _, rfl⟩
  rw [if_neg herase]
  by_cases hkill : isCc c tty.termios.vkill
  · rw [if_pos hkill, if_pos (.inr hkill)]
    exact .inl ⟨rfl, _, _, rfl⟩
  rw [if_neg hkill, if_neg (not_or.2 ⟨herase, hkill⟩)]
  by_cases heof : isCc c tty.termios.veof
  · rw [if_pos heof, if_pos heof]
    exact .inr ⟨_, _, _, rfl, fun _ => rfl, rfl⟩
  rw [if_neg heof]
  obtain ⟨screen, happend⟩ := appended_eq tty c
  have hne : tty.appended c ≠ [] := by
    unfold appended
    split
    · next hfull => exact ne_nil_of_length_pos (by omega)
    simp
  rw [happend]
  dsimp only
  split
  · exact .inr ⟨_, _, _, rfl, fun hnil => absurd hnil hne, rfl⟩
  exact .inl ⟨rfl, _, _, rfl⟩

/-- What a character does: it changes nothing but the line, the screen and the signals; or it sends
a line; or, in the mode that is not canonical, it goes to the ring. -/
theorem ttyInput_cases (tty : Tty) (c : BitVec 8) :
    (tty.sentLine c = none ∧ ∃ canon screen signals,
      tty.ttyInput c = .ok { tty with canon, screen, signals }) ∨
    (∃ cause line screen, tty.sentLine c = some (cause, line) ∧ tty.termios.icanon ∧
      (line = [] → cause = .eof) ∧
      tty.ttyInput c = { tty with canon := line, screen }.ttyCanonSendLine cause) ∨
    (tty.sentLine c = none ∧ ¬tty.termios.icanon ∧ ∃ c', tty.ttyInput c = tty.ttyRawInput c') := by
  unfold sentLine ttyInput
  cases tty.termios.translate c with
  | none => exact .inl ⟨rfl, _, _, _, rfl⟩
  | some c => ?_
  dsimp only
  cases tty.termios.signalOf c with
  | some signal => exact .inl ⟨rfl, _, _, _, rfl⟩
  | none => ?_
  by_cases hicanon : tty.termios.icanon
  · rw [if_pos hicanon, if_neg (by simp [hicanon])]
    rcases ttyCanonInput_cases tty c with ⟨hline, canon, screen, h⟩ | ⟨_, _, _, hline, hcause, h⟩
    · exact .inl ⟨hline, canon, screen, _, h⟩
    exact .inr (.inl ⟨_, _, _, hline, hicanon, hcause, h⟩)
  rw [if_neg hicanon, if_pos (.inr hicanon)]
  exact .inr (.inr ⟨rfl, hicanon, c, rfl⟩)

theorem ttyRawInput_sound (h : tty.Consistent) (hicanon : ¬tty.termios.icanon) (c : BitVec 8) :
    ∃ tty', tty.ttyRawInput c = .ok tty' ∧ tty'.Consistent ∧ (tty.Counted → tty'.Counted) := by
  obtain ⟨ring, hwrite, hvalid, hcontent, -⟩ := write_spec h.ring [c]
  have hput : tty.put ++ [c].take tty.inputBuffer.writeAvailable = tty.returned ++ ring.content := by
    rw [h.put, hcontent, append_assoc]
  unfold ttyRawInput
  dsimp only [ttyEcho]
  rw [hwrite]
  dsimp only
  rw [take_written]
  refine ⟨_, rfl, ?_⟩
  split
  all_goals exact ⟨⟨hvalid, h.linesCount, hput⟩,
    fun hc => ⟨fun hi => absurd hi hicanon, hc.emptyLine⟩⟩

/-- A character keeps the bookkeeping exactly if the line it sends fits. -/
theorem ttyInput_sound (h : tty.Consistent) (c : BitVec 8) :
    ∃ tty', tty.ttyInput c = .ok tty' ∧ tty'.Consistent ∧
      (tty.Counted → (tty'.Counted ↔ tty.LineFits (.input c))) := by
  rcases ttyInput_cases tty c with ⟨hline, canon, screen, signals, hinput⟩ |
    ⟨cause, line, screen, hline, hicanon, hcause, hinput⟩ | ⟨hline, hicanon, c', hinput⟩
  · refine ⟨_, hinput, { h with }, fun hc => ?_⟩
    refine iff_of_true ⟨hc.linesSum, hc.emptyLine⟩ fun _ _ hsome => ?_
    cases hline.symm.trans hsome
  · have hpending : ({ tty with canon := line, screen } : Tty).Consistent := { h with }
    obtain ⟨tty', hsend, hcons, htermios, hsum, hrec⟩ := ttyCanonSendLine_counts hpending hcause
    refine ⟨tty', hinput.trans hsend, hcons, fun hc => ?_⟩
    have hfits : tty.LineFits (.input c) ↔ tty.Fits line := by
      constructor
      · exact fun hall => hall cause line hline
      intro hfit _ _ hsome
      cases hline.symm.trans hsome
      exact hfit
    have hcounted : tty'.Counted ↔ tty'.lines.sum = tty'.inputBuffer.readAvailable ∧
        ∀ r ∈ tty'.recorded, r.length = 0 → r.cause = .eof ∧ r.pending = 0 := by
      constructor
      · exact fun h' => ⟨h'.linesSum (by rw [htermios]; exact hicanon), h'.emptyLine⟩
      exact fun h' => ⟨fun _ => h'.1, h'.2⟩
    rw [hfits, hcounted, hsum (hc.linesSum hicanon), hrec hc.emptyLine]
    simp only [Fits]
    by_cases hnil : line = []
    · simp [hnil]
    grind
  obtain ⟨tty', hraw, hcons, hcounted⟩ := ttyRawInput_sound h hicanon c'
  refine ⟨tty', hinput.trans hraw, hcons, fun hc => iff_of_true (hcounted hc) fun _ _ hsome => ?_⟩
  cases hline.symm.trans hsome

theorem ttyRawRead_line (h : tty.inputBuffer.Valid) (hicanon : tty.termios.icanon) {line : Nat}
    {rest : List Nat} (hlines : tty.lines = line :: rest) (count : Nat) (nonblock : Bool) :
    ∃ ring, ring.Valid ∧ ring.content = tty.inputBuffer.content.drop (min count line) ∧
      tty.ttyRawRead count nonblock = (some (.ok (tty.inputBuffer.content.take (min count line))),
        { tty with
          inputBuffer := ring
          lines :=
            if line - (tty.inputBuffer.content.take (min count line)).length = 0 then rest
            else (line - (tty.inputBuffer.content.take (min count line)).length) :: rest
          returned := tty.returned ++ tty.inputBuffer.content.take (min count line) }) := by
  have hcount : (if count > line then line else count) = min count line := by
    split <;> omega
  obtain ⟨ring, hread, hvalid, hcontent, -⟩ := read_spec h (min count line)
  refine ⟨ring, hvalid, hcontent, ?_⟩
  have hwake : tty.ttyEndReadSleep = true := by simp [ttyEndReadSleep, hicanon, hlines]
  unfold ttyRawRead
  rw [if_neg (by simp [hwake]), if_pos hicanon, hlines]
  dsimp only
  rw [hcount, hread]

section

variable (h : tty.Consistent)
include h

/-- A read in the canonical mode keeps the bookkeeping. -/
theorem ttyRawRead_line_sound (hicanon : tty.termios.icanon) {line : Nat} {rest : List Nat}
    (hlines : tty.lines = line :: rest) (count : Nat) (nonblock : Bool) :
    (tty.ttyRawRead count nonblock).2.Consistent ∧
      (tty.Counted → (tty.ttyRawRead count nonblock).2.Counted) := by
  obtain ⟨ring, hvalid, hcontent, hread⟩ := ttyRawRead_line h.ring hicanon hlines count nonblock
  have hcount := h.linesCount
  rw [hlines, length_cons] at hcount
  rw [hread]
  refine ⟨⟨hvalid, ?_, ?_⟩, fun hc => ⟨fun _ => ?_, hc.emptyLine⟩⟩
  · dsimp only
    split
    · omega
    exact hcount
  · rw [hcontent, append_assoc, take_append_drop, h.put]
  have hsum := hc.linesSum hicanon
  rw [hlines, sum_cons] at hsum
  have havail : ring.readAvailable = tty.inputBuffer.readAvailable - min count line := by
    rw [← ring.length_content, hcontent, length_drop, tty.inputBuffer.length_content]
  simp only [length_take, length_content]
  split
  · omega
  rw [sum_cons]
  omega

/-- A read keeps the bookkeeping. -/
theorem ttyRawRead_sound (count : Nat) (nonblock : Bool) :
    (tty.ttyRawRead count nonblock).2.Consistent ∧
      (tty.Counted → (tty.ttyRawRead count nonblock).2.Counted) := by
  by_cases hicanon : tty.termios.icanon
  · cases hlines : tty.lines with
    | cons line rest => exact ttyRawRead_line_sound h hicanon hlines count nonblock
    | nil =>
      have hsame : (tty.ttyRawRead count nonblock).2 = tty := by
        unfold ttyRawRead
        split
        · rfl
        rw [hlines]
      rw [hsame]
      exact ⟨h, id⟩
  unfold ttyRawRead
  obtain ⟨ring, hread, hvalid, hcontent, -⟩ := read_spec h.ring count
  rw [hread]
  split
  · exact ⟨h, id⟩
  split
  · exact ⟨h, id⟩
  refine ⟨⟨hvalid, h.linesCount, ?_⟩, fun hc => ⟨fun hi => absurd hi hicanon, hc.emptyLine⟩⟩
  rw [hcontent, append_assoc, take_append_drop, h.put]

theorem enterCanonical_sound (new : Termios) :
    ({ tty.enterCanonical with termios := new } : Tty).Consistent ∧
      (tty.Counted → ({ tty.enterCanonical with termios := new } : Tty).Counted) := by
  unfold enterCanonical
  dsimp only
  split
  · next hpos =>
    refine ⟨⟨h.ring, by simp, h.put⟩, fun hc => ⟨fun _ => sum_singleton, ?_⟩⟩
    refine forall_mem_cons.2 ⟨fun hzero => ?_, hc.emptyLine⟩
    exact absurd hzero (by dsimp only; omega)
  next hzero =>
  refine ⟨⟨h.ring, by simp, h.put⟩, fun hc => ⟨fun _ => ?_, hc.emptyLine⟩⟩
  show (0 : Nat) = tty.inputBuffer.readAvailable
  omega

/-- The line begun is sent; after that the mode is not canonical, so that only the length that is
recorded matters. -/
theorem leaveCanonical_sound {new : Termios} (hnew : ¬new.icanon) :
    ∃ tty', tty.leaveCanonical = .ok tty' ∧ ({ tty' with termios := new } : Tty).Consistent ∧
      (tty.Counted → (({ tty' with termios := new } : Tty).Counted ↔
        (tty.canon ≠ [] → tty.lines.length < 256 → 0 < tty.inputBuffer.writeAvailable))) := by
  unfold leaveCanonical
  split
  · next hpos =>
    have hne : tty.canon ≠ [] := ne_nil_of_length_pos hpos
    have hcause : tty.canon = [] → LineCause.leaving = .eof := fun hnil => absurd hnil hne
    obtain ⟨tty', hsend, hcons, -, -, hrec⟩ := ttyCanonSendLine_counts h hcause
    refine ⟨tty', hsend, { hcons with }, fun hc => ?_⟩
    have hcounted : ({ tty' with termios := new } : Tty).Counted ↔
        ∀ r ∈ tty'.recorded, r.length = 0 → r.cause = .eof ∧ r.pending = 0 :=
      ⟨fun h' => h'.emptyLine, fun h' => ⟨fun hi => absurd hi hnew, h'⟩⟩
    rw [hcounted, hrec hc.emptyLine]
    exact ⟨fun hroom _ hlt => hroom hlt hne, fun hroom hlt _ => hroom hne hlt⟩
  next hzero =>
  have hnil : tty.canon = [] := length_eq_zero_iff.1 (by omega)
  refine ⟨tty, rfl, { h with }, fun hc => ?_⟩
  exact iff_of_true ⟨fun hi => absurd hi hnew, hc.emptyLine⟩ fun hne => absurd hnil hne

/-- A change of the mode keeps the bookkeeping exactly if the line it sends fits. -/
theorem ttyTermiosUpdate_sound (new : Termios) (refusal : Option Errno) :
    ∃ r tty', tty.ttyTermiosUpdate new refusal = .ok (r, tty') ∧ tty'.Consistent ∧
      (tty.Counted → (tty'.Counted ↔ tty.LineFits (.setTermios new refusal))) := by
  cases refusal with
  | some e => exact ⟨_, _, rfl, h, fun hc => iff_of_true hc fun hfit => by cases hfit.1⟩
  | none => ?_
  have hsame (hmode : new.icanon = tty.termios.icanon) :
      tty.ttyTermiosUpdate new none = .ok (.ok (), { tty with termios := new }) := by
    simp [ttyTermiosUpdate, hmode]
  by_cases hnew : new.icanon
  · have hfits : tty.LineFits (.setTermios new none) := fun hfit => absurd hnew hfit.2.1
    by_cases hold : tty.termios.icanon
    · refine ⟨_, _, hsame (hnew.trans hold.symm), { h with }, fun hc => ?_⟩
      exact iff_of_true ⟨fun _ => hc.linesSum hold, hc.emptyLine⟩ hfits
    have hupdate : tty.ttyTermiosUpdate new none =
        .ok (.ok (), { tty.enterCanonical with termios := new }) := by
      simp [ttyTermiosUpdate, hnew, hold]
    obtain ⟨hcons, hcounted⟩ := enterCanonical_sound h new
    exact ⟨_, _, hupdate, hcons, fun hc => iff_of_true (hcounted hc) hfits⟩
  by_cases hold : tty.termios.icanon
  · obtain ⟨tty', hleave, hcons, hcounted⟩ := leaveCanonical_sound h hnew
    have hupdate : tty.ttyTermiosUpdate new none = .ok (.ok (), { tty' with termios := new }) := by
      simp [ttyTermiosUpdate, hnew, hold, hleave]
    refine ⟨_, _, hupdate, hcons, fun hc => (hcounted hc).trans ?_⟩
    exact ⟨fun hroom hfit => hroom hfit.2.2.2.1 hfit.2.2.2.2,
      fun hroom hne hlt => hroom ⟨rfl, hnew, hold, hne, hlt⟩⟩
  have hmode : new.icanon = tty.termios.icanon := by simp [hnew, hold]
  refine ⟨_, _, hsame hmode, { h with }, fun hc => ?_⟩
  exact iff_of_true ⟨fun hi => absurd hi hnew, hc.emptyLine⟩
    fun hfit => absurd hfit.2.2.1 hold

theorem step_sound (call : TtyCall) :
    ∃ r tty', tty.step call = .ok (r, tty') ∧ tty'.Consistent ∧
      (tty.Counted → (tty'.Counted ↔ tty.LineFits call)) := by
  cases call with
  | input c =>
    obtain ⟨tty', hinput, hrest⟩ := ttyInput_sound h c
    exact ⟨none, tty', by simp [step, hinput], hrest⟩
  | read count nonblock =>
    obtain ⟨hcons, hcounted⟩ := ttyRawRead_sound h count nonblock
    exact ⟨_, _, rfl, hcons, fun hc => iff_of_true (hcounted hc) trivial⟩
  | setTermios new refusal =>
    obtain ⟨r, tty', hupdate, hrest⟩ := ttyTermiosUpdate_sound h new refusal
    exact ⟨none, tty', by simp [step, hupdate], hrest⟩

end

/-! ## Runs -/

/-- One read for each length in `lines` returns all bytes of the ring. -/
theorem runOps_lines {lines : List Nat} (h : tty.Consistent) (hicanon : tty.termios.icanon)
    (hlines : tty.lines = lines) (hsum : lines.sum = tty.inputBuffer.readAvailable) :
    ∃ rs tty', runOps step tty (lines.map fun n => .read n true) = .ok (rs, tty') ∧
      tty'.returned = tty.put := by
  induction lines generalizing tty with
  | nil =>
    have hcontent := length_eq_zero_iff.1 (by rw [length_content, ← hsum]; rfl)
    exact ⟨[], tty, rfl, by rw [h.put, hcontent, append_nil]⟩
  | cons line rest ih => ?_
  obtain ⟨ring, hvalid, hcontent, hread⟩ := ttyRawRead_line h.ring hicanon hlines line true
  have hcons := (ttyRawRead_line_sound h hicanon hlines line true).1
  rw [sum_cons] at hsum
  have hlength : (tty.inputBuffer.content.take (min line line)).length = line := by
    rw [length_take, length_content]
    omega
  rw [hread] at hcons
  rw [hlength, Nat.sub_self] at hcons hread
  obtain ⟨rs, tty', hrun, hreturned⟩ := ih hcons hicanon rfl (by
    rw [← ring.length_content, hcontent, length_drop, length_content]
    omega)
  exact ⟨_, tty', runOps_cons_eq_ok.2 ⟨_, _, rs, congrArg _ hread, hrun, rfl⟩, hreturned⟩

theorem Consistent.sound_iff (h : tty.Consistent) : tty.Sound ↔ tty.Counted := by
  constructor
  · exact fun hs => ⟨hs.linesSum, hs.emptyLine⟩
  intro hc
  exact ⟨fun _ => h.linesCount, hc.linesSum, hc.emptyLine, h.put,
    fun hicanon => runOps_lines h hicanon rfl (hc.linesSum hicanon)⟩

theorem consistent_ttyRegister (canonBefore : BitVec 8) : (ttyRegister canonBefore).Consistent :=
  ⟨valid_init (by decide), by simp [ttyRegister], rfl⟩

theorem counted_ttyRegister (canonBefore : BitVec 8) : (ttyRegister canonBefore).Counted :=
  ⟨fun _ => rfl, by simp [ttyRegister]⟩

/-- **The bookkeeping of the canonical mode.** In a run of characters, reads and changes of the mode,
each state has as many lengths as fit, which add up to the bytes in the ring, no length of zero but
for an end of file, and all bytes returned in order or still in the ring, exactly if every line that
is sent fits. -/
theorem tty_canonical_iff (canonBefore : BitVec 8) (calls : List TtyCall) :
    RunAll step Sound (ttyRegister canonBefore) calls ↔
      CallsAll step LineFits (ttyRegister canonBefore) calls := by
  have hstart := consistent_ttyRegister canonBefore
  refine runAll_iff (I := fun _ => Consistent) ?_ hstart
    (hstart.sound_iff.2 (counted_ttyRegister canonBefore)) (.of_mem fun _ _ _ => trivial)
  intro _ tty call h _
  obtain ⟨r, tty', hstep, hcons, hcounted⟩ := step_sound h call
  refine ⟨r, tty', hstep, hcons, fun hs => ?_⟩
  rw [hcons.sound_iff]
  exact hcounted (h.sound_iff.1 hs)

/-- A reader that is late by 257 lines: the last one goes to the ring without its length. -/
theorem tty_line_without_length :
    ¬RunAll step Sound (ttyRegister 0) (List.replicate 257 (.input charNl)) := by
  intro hrun
  have hlast : (runOps step (ttyRegister 0) (List.replicate 257 (.input charNl))).okAnd
      (fun r => r.2.termios.icanon && r.2.lines.sum != r.2.inputBuffer.readAvailable) = true := by
    decide +kernel
  obtain ⟨r, hok, hsum⟩ := Exec.okAnd_eq_true.1 hlast
  simp only [Bool.and_eq_true, bne_iff_ne] at hsum
  exact hsum.2 ((hrun.final hok).linesSum hsum.1)

end Tty

end Stanix

import PlanckOS.Shell.Editor
import PlanckOS.Display.Vga
import PlanckOS.Display.Framebuffer

/-!
# The arrays of the shell: the history and the command buffer

`history_push` moves two arrays in step and copies a line over the first slot. Whatever the slots
held before, `history_get` then finds the last 64 lines, each cut to 256 bytes, and the history
cursor stays on them (`history_keeps_last`).

The command buffer has 256 bytes too, but a line may grow to `cols() - 2` of them, and `cols()` is
the width of the screen that the boot loader reports. `line_fits_iff` says which screens are safe.
-/

set_option autoImplicit false

namespace PlanckOS.Shell

open Lib.LineEditor Lib.Transition Display List

/-! ## The history -/

/-- Only the first 256 bytes of a line count. -/
theorem historyPush_take (s : Shell) (buf : List UInt8) :
    s.historyPush buf = s.historyPush (buf.take MAX_CMD) := by
  have hlen : min (buf.take MAX_CMD).length MAX_CMD = min buf.length MAX_CMD := by
    rw [length_take]
    omega
  have htake : (buf.take MAX_CMD).take (min buf.length MAX_CMD) =
      buf.take (min buf.length MAX_CMD) := by
    rw [take_take, Nat.min_eq_left (Nat.min_le_right _ _)]
  simp only [historyPush, hlen, htake]

/-- The lines that are kept, the last one first. -/
def keptLines (lines : List (List UInt8)) : List (List UInt8) :=
  (lines.filter (· ≠ [])).reverse.map (·.take MAX_CMD)

/-- Lines are pushed in front of the history. -/
theorem WellFormed.pushes {s : Shell} (hs : s.WellFormed) (lines : List (List UInt8)) :
    ∃ t, runSteps Shell.historyPush s lines = some t ∧ t.WellFormed ∧
      t.history = (keptLines lines ++ s.history).take HISTORY_SIZE := by
  induction lines generalizing s with
  | nil =>
    refine ⟨s, rfl, hs, (take_of_length_le ?_).symm⟩
    exact hs.length_history.trans_le hs.count_le
  | cons line lines ih =>
    rw [runSteps, keptLines]
    by_cases hne : line = []
    · subst hne
      exact ih hs
    · have hcut : line.take MAX_CMD ≠ [] := by
        rw [Ne, take_eq_nil_iff]
        exact not_or.mpr ⟨by decide, hne⟩
      obtain ⟨s', hpush, hs', hhistory⟩ := hs.historyPush hcut (length_take_le _ _)
      obtain ⟨t, hrun, ht, hrest⟩ := ih hs'
      rw [historyPush_take, hpush, filter_cons_of_pos (by simpa using hne),
        reverse_cons, map_append, map_singleton]
      refine ⟨t, hrun, ht, ?_⟩
      -- the lines that fall off the end do so at once or later
      rw [hrest, hhistory, append_assoc, singleton_append, take_append,
        take_append, take_take, Nat.min_eq_left (Nat.sub_le _ _)]
      rfl

/-! ## The history cursor -/

/-- The history cursor is on a line of the history, or on none. -/
def InHistory (s : Shell) : Prop :=
  -1 ≤ s.historyCursor ∧ s.historyCursor ≤ (s.historyCount : Int) - 1

section Cursor

variable {cols : Nat} {s : Shell} {line : Line} {r : Shell × Line} {c : UInt8}

theorem recallLine_inHistory (h : recallLine cols s line = some r) (hs : s.InHistory) :
    r.1.InHistory := by
  simp only [recallLine, Option.bind_eq_bind, Option.bind_eq_some_iff] at h
  obtain ⟨_, -, _, -, hr⟩ := h
  cases hr
  exact hs

/-- Every key that is not Enter leaves the history cursor on the history. -/
theorem editKey_inHistory (h : editKey cols s line c = some r) (hs : s.InHistory) :
    r.1.InHistory := by
  obtain ⟨hlow, hhigh⟩ := hs
  unfold editKey at h
  split at h
  · -- backspace moves bytes of the line only, as do left, right and the printable characters
    rw [backspaceKey] at h
    split at h
    · obtain ⟨_, -, hr⟩ := Option.bind_eq_some_iff.mp h
      cases hr
      exact ⟨hlow, hhigh⟩
    · cases h
      exact ⟨hlow, hhigh⟩
  split at h
  · rw [leftKey] at h
    split at h <;> cases h <;> exact ⟨hlow, hhigh⟩
  split at h
  · rw [rightKey] at h
    split at h
    · obtain ⟨_, -, hr⟩ := Option.bind_eq_some_iff.mp h
      cases hr
      exact ⟨hlow, hhigh⟩
    · cases h
      exact ⟨hlow, hhigh⟩
  split at h
  · rw [upKey] at h
    split at h
    next hup => exact recallLine_inHistory h ⟨by dsimp only; omega, by dsimp only; omega⟩
    next =>
      cases h
      exact ⟨hlow, hhigh⟩
  split at h
  · rw [downKey] at h
    split at h
    next hdown =>
      dsimp only at h
      split at h
      next hout =>
        cases h
        exact ⟨hout.ge, by dsimp only [redrawn, redrawInput, draw]; omega⟩
      next => exact recallLine_inHistory h ⟨by dsimp only; omega, by dsimp only; omega⟩
    next =>
      cases h
      exact ⟨hlow, hhigh⟩
  split at h
  · rw [printableKey] at h
    split at h
    · simp only [Option.bind_eq_bind, Option.bind_eq_some_iff] at h
      obtain ⟨_, -, _, -, hr⟩ := h
      cases hr
      exact ⟨hlow, hhigh⟩
    · cases h
      exact ⟨hlow, hhigh⟩
  · cases h
    exact ⟨hlow, hhigh⟩

theorem startLine_inHistory (s : Shell) : s.startLine.1.InHistory :=
  ⟨le_rfl, by dsimp only [startLine, draw]; omega⟩

theorem key_inHistory {t t' : Console} (h : t.key cols c = some t') (ht : t.shell.InHistory) :
    t'.shell.InHistory := by
  rw [Console.key] at h
  split at h
  · obtain ⟨s, -, hs⟩ := Option.bind_eq_some_iff.mp h
    cases hs
    exact startLine_inHistory s
  · obtain ⟨r, hr, hs⟩ := Option.bind_eq_some_iff.mp h
    cases hs
    exact editKey_inHistory hr ht

/-- A whole sequence of keys. -/
theorem keys_inHistory {t t' : Console} {keys : List UInt8} (ht : t.shell.InHistory)
    (h : runSteps (Console.key cols) t keys = some t') : t'.shell.InHistory := by
  have hreach : Reach (fun t => t.shell.InHistory) (fun _ _ => True) _ t' :=
    .of_run (.init ht) (fun _ _ _ => trivial) h
  exact hreach.invariant (fun _ ht => ht) fun _ _ _ ht _ hstep => key_inHistory hstep ht

end Cursor

/-- **The history keeps the last 64 commands.** From an empty shell, any lines pushed leave as many
as are not empty, at most 64, and `history_get(i)` is the one pushed `i` lines before the last, cut
to 256 bytes. While lines are edited, on any screen and with any history, the history cursor is -1
or the number of a line. -/
theorem history_keeps_last (lines : List (List UInt8)) (cols : Nat) (s : Shell)
    (keys : List UInt8) : (∃ t, runSteps Shell.historyPush new lines = some t ∧
      t.historyCount = min (lines.filter (· ≠ [])).length 64 ∧
      ∀ i < t.historyCount, ∃ line, (lines.filter (· ≠ [])).reverse[i]? = some line ∧
        t.historyGet i = some (line.take 256)) ∧
    ∀ t, runSteps (Console.key cols) (Console.start s) keys = some t →
      -1 ≤ t.shell.historyCursor ∧ t.shell.historyCursor ≤ (t.shell.historyCount : Int) - 1 := by
  obtain ⟨t, hrun, ht, hhistory⟩ := new_wellFormed.pushes lines
  have hempty : new.history = [] := rfl
  rw [hempty, append_nil] at hhistory
  have hcount := ht.length_history
  rw [hhistory, length_take, keptLines, length_map, length_reverse] at hcount
  refine ⟨⟨t, hrun, hcount.symm.trans (Nat.min_comm _ _), fun i hi => ?_⟩, fun t h =>
    keys_inHistory (startLine_inHistory s) h⟩
  rw [← ht.length_history] at hi
  have hline : t.history[i]? = some t.history[i] := getElem?_eq_getElem hi
  have hlt : i < HISTORY_SIZE := hi.trans_le (ht.length_history.trans_le ht.count_le)
  rw [congrArg (·[i]?) hhistory, getElem?_take, if_pos hlt, keptLines, getElem?_map,
    Option.map_eq_some_iff] at hline
  obtain ⟨line, hget, hcut⟩ := hline
  exact ⟨line, hget, (ht.historyGet hi).1.trans (congrArg some hcut.symm)⟩

/-! ## The command buffer -/

/-- What the set-up of the display reads of the boot information, apart from the address. -/
structure BootInfo where
  vbeAvailable : UInt8
  width : Nat

/-- `cols()` of the display that `_start` sets up: a framebuffer, or the text mode. -/
def BootInfo.cols (info : BootInfo) (font : FontData) : Nat :=
  if info.vbeAvailable = 1 then info.width / (font.glyphW / DOWNSCALE * SCALE) else WIDTH

section Overrun

variable {cols : Nat}

/-- A letter typed at the end of a line. -/
theorem key_at_end {t : Console} (hroom : t.line.len < cols - 2)
    (hcursor : t.shell.cursorPos = t.line.len)
    (hlen : t.line.len < t.line.buf.length) :
    ∃ t', t.key cols 0x61 = some t' ∧ t'.line.len = t.line.len + 1 ∧
      t'.shell.cursorPos = t.line.len + 1 ∧ t'.line.buf.length = t.line.buf.length := by
  have hshift : shiftUp t.line.buf t.line.len t.line.len = some t.line.buf := by
    rw [shiftUp, Nat.sub_self]
    rfl
  have hkey : t.key cols 0x61 = (printableKey cols t.shell t.line 0x61).bind fun r =>
    some { t with shell := r.1, line := r.2 } := rfl
  rw [hkey, printableKey, if_pos hroom, hcursor, hshift]
  simp only [Option.bind_eq_bind, Option.bind_some, getElem?_eq_getElem hlen]
  exact ⟨_, rfl, rfl, rfl, length_set⟩

/-- A line that is typed on a wide screen, up to the size of the buffer. -/
theorem keys_at_end (hcols : 259 ≤ cols) (s : Shell) {n : Nat} (hn : n ≤ MAX_CMD) :
    ∃ t, runSteps (Console.key cols) (Console.start s) (replicate n 0x61) = some t ∧
      t.line.len = n ∧ t.shell.cursorPos = n ∧ t.line.buf.length = MAX_CMD := by
  induction n with
  | zero => exact ⟨_, rfl, rfl, rfl, length_replicate⟩
  | succ n ih =>
    obtain ⟨t, hrun, hlen, hcursor, hbuf⟩ := ih (by omega)
    have hmax : MAX_CMD = 256 := rfl
    obtain ⟨t', hkey, hlen', hcursor', hbuf'⟩ := key_at_end (t := t) (show _ < cols - 2 by omega)
      (hcursor.trans hlen.symm) (by omega)
    rw [replicate_succ', runSteps_append, hrun]
    exact ⟨t', by rw [Option.bind_some, runSteps, hkey]; rfl, by omega, by omega, hbuf'.trans hbuf⟩

/-- The 257th letter is stored behind the buffer. -/
theorem overrun (hcols : 259 ≤ cols) (s : Shell) :
    runSteps (Console.key cols) (Console.start s) (replicate 257 0x61) = none := by
  obtain ⟨t, hrun, hlen, hcursor, hbuf⟩ := keys_at_end hcols s (n := MAX_CMD) le_rfl
  have hmax : MAX_CMD = 256 := rfl
  have hkey : t.key cols 0x61 = none := by
    have hout : t.line.buf[t.shell.cursorPos]? = none := getElem?_eq_none (by omega)
    have hshift : shiftUp t.line.buf t.shell.cursorPos t.line.len = some t.line.buf := by
      rw [shiftUp, hlen, hcursor, Nat.sub_self]
      rfl
    rw [Console.key, if_neg (by decide)]
    have hprint : editKey cols t.shell t.line 0x61 = printableKey cols t.shell t.line 0x61 := rfl
    rw [hprint, printableKey, if_pos (by omega), hshift]
    simp only [Option.bind_eq_bind, Option.bind_some, hout, Option.bind_none]
  rw [show 257 = MAX_CMD + 1 from rfl, replicate_succ', runSteps_append, hrun, Option.bind_some,
    runSteps, hkey]
  rfl

end Overrun

/-- **Which screens are too wide.** With any history, all sequences of keys stay in the buffer of
256 bytes exactly when the display is not a framebuffer of 259 columns or more: the length of a line
is checked against the screen only. -/
theorem line_fits_iff (font : FontData) (hfont : 0 < font.glyphW / DOWNSCALE) (info : BootInfo)
    {s : Shell} (hs : s.WellFormed) :
    (∀ keys, ∃ t, runSteps (Console.key (info.cols font)) (Console.start s) keys = some t ∧
      t.line.len ≤ 256) ↔
    ¬ (info.vbeAvailable = 1 ∧ 259 * (font.glyphW / DOWNSCALE) ≤ info.width) := by
  have hcols : 259 ≤ info.cols font ↔
      info.vbeAvailable = 1 ∧ 259 * (font.glyphW / DOWNSCALE) ≤ info.width := by
    rw [BootInfo.cols, SCALE, Nat.mul_one]
    split
    next hvbe => rw [Nat.le_div_iff_mul_le hfont, and_iff_right hvbe]
    next hvbe => exact iff_of_false (by decide) fun h => hvbe h.1
  rw [← hcols]
  constructor
  · intro hkeys hwide
    obtain ⟨t, hrun, -⟩ := hkeys (replicate 257 0x61)
    rw [overrun hwide] at hrun
    cases hrun
  · intro hnarrow keys
    obtain ⟨t, hrun, h⟩ := keys_refine (show info.cols font ≤ 258 by omega) keys (start_refines hs)
    exact ⟨t, hrun, h.edits.len_le⟩

/-- The font of the system has cells of 32 × 64 pixels; the screen here is 1920 pixels wide, and 300
letters are typed. -/
theorem line_fits_fullHd : ∃ t, runSteps (Console.key (BootInfo.cols ⟨1, 1920⟩
    ⟨32, 64, 0, [], none⟩)) (Console.start new) (replicate 300 0x61) = some t ∧ t.line.len ≤ 256 :=
  (line_fits_iff ⟨32, 64, 0, [], none⟩ (by decide) ⟨1, 1920⟩ new_wellFormed).mpr (by decide) _

/-- On a screen of 4144 pixels the 257th letter of a command is stored behind the buffer. -/
theorem line_overruns : new.WellFormed ∧
    runSteps (Console.key (BootInfo.cols ⟨1, 4144⟩ ⟨32, 64, 0, [], none⟩)) (Console.start new)
      (replicate 257 0x61) = none :=
  ⟨new_wellFormed, overrun (by decide) new⟩

end PlanckOS.Shell

import PlanckOS.Lib.LineEditor
import PlanckOS.Lib.Transition

/-!
# The line editor of `src/shell/mod.rs`

`Shell::run` reads keys into an array of 256 bytes. Insertion and deletion move its cells one by
one, a line of the history is copied over it, and what stands behind `len` stays as it is. The
history is an array of 64 such arrays with their lengths. `none` is an index past the end of an
array.

`shell_refines_editor` relates this to a line with a cursor (`Lib.LineEditor`): for every sequence
of keys the bytes in use are the line, the history arrays are the list of the last 64 lines, and the
commands that are run are the lines entered. What a command itself does is left out: it gets the
display and the keyboard, and not the line or the history.
-/

set_option autoImplicit false

namespace PlanckOS

open Lib.LineEditor Lib.Transition List

/-! ## Model -/

namespace Shell

def PROMPT : String := "$ "
def MAX_CMD : Nat := 256
def HISTORY_SIZE : Nat := 64

/-- A call of the display. -/
inductive Call where
  | putchar (c : UInt8)
  | write (s : String)
  | showCursor
  deriving DecidableEq, Repr

end Shell

structure Shell where
  display : List Shell.Call
  cursorPos : Nat
  historyEntries : List (List UInt8)
  historyLens : List Nat
  historyCount : Nat
  historyCursor : Int
  deriving DecidableEq, Repr

namespace Shell

/-- The locals `buf` and `len` of `run`. -/
structure Line where
  buf : List UInt8
  len : Nat
  deriving DecidableEq, Repr

/-- `Shell::new`. -/
def new : Shell where
  display := []
  cursorPos := 0
  historyEntries := replicate HISTORY_SIZE (replicate MAX_CMD 0)
  historyLens := replicate HISTORY_SIZE 0
  historyCount := 0
  historyCursor := -1

def draw (s : Shell) (calls : List Call) : Shell := { s with display := s.display ++ calls }

/-- `copy_from_slice` into the first bytes of an array. -/
def copyFront (array bytes : List UInt8) : Option (List UInt8) :=
  if bytes.length ≤ array.length then some (bytes ++ array.drop bytes.length) else none

def historyPush (s : Shell) (buf : List UInt8) : Option Shell :=
  let len := min buf.length MAX_CMD
  if len = 0 then some s
  else do
    let maxShift := min s.historyCount (HISTORY_SIZE - 1)
    let entries ← shiftUp s.historyEntries 0 maxShift
    let lens ← shiftUp s.historyLens 0 maxShift
    let front ← entries[0]?
    let front ← copyFront front (buf.take len)
    let _ ← lens[0]?
    pure { s with
      historyEntries := entries.set 0 front
      historyLens := lens.set 0 len
      historyCount := if s.historyCount < HISTORY_SIZE then s.historyCount + 1 else s.historyCount }

def historyGet (s : Shell) (idx : Nat) : Option (List UInt8) :=
  if idx < s.historyCount then do
    let entry ← s.historyEntries[idx]?
    let len ← s.historyLens[idx]?
    if len ≤ entry.length then pure (entry.take len) else none
  else some []

section

variable (cols : Nat) (s : Shell) (line : Line)

def redrawInput : Shell :=
  let promptLen := 2
  let lineClear := cols - promptLen - 1
  let moves := line.len - s.cursorPos
  s.draw ([Call.putchar 0x0D, Call.write PROMPT] ++ replicate lineClear (Call.putchar 0x20) ++
    [Call.putchar 0x0D, Call.write PROMPT] ++ (line.buf.take line.len).map Call.putchar ++
    replicate moves (Call.putchar 0x08))

/-- Draw the line again, with the cursor. -/
def redrawn : Shell × Line :=
  ((s.redrawInput cols line).draw [.showCursor], line)

/-- The line of the history at `history_cursor` replaces the one that is edited. -/
def recallLine : Option (Shell × Line) := do
  let entry ← s.historyGet s.historyCursor.toNat
  let len := min entry.length MAX_CMD
  let buf ← copyFront line.buf (entry.take len)
  pure (redrawn cols { s with cursorPos := len } ⟨buf, len⟩)

/-- Backspace. -/
def backspaceKey : Option (Shell × Line) :=
  if 0 < s.cursorPos ∧ 0 < line.len then do
    let buf ← shiftDown line.buf s.cursorPos line.len
    pure (redrawn cols { s with cursorPos := s.cursorPos - 1 } ⟨buf, line.len - 1⟩)
  else some (s, line)

end

/-- Left arrow. -/
def leftKey (s : Shell) (line : Line) : Option (Shell × Line) :=
  if 0 < s.cursorPos then
    some ({ s with cursorPos := s.cursorPos - 1 }.draw [.putchar 0x08, .showCursor], line)
  else some (s, line)

/-- Right arrow. -/
def rightKey (s : Shell) (line : Line) : Option (Shell × Line) :=
  if s.cursorPos < line.len then do
    let c ← line.buf[s.cursorPos]?
    pure ({ s with cursorPos := s.cursorPos + 1 }.draw [.putchar c, .showCursor], line)
  else some (s, line)

section

variable (cols : Nat) (s : Shell) (line : Line)

/-- Up arrow: history back. -/
def upKey : Option (Shell × Line) :=
  if s.historyCursor < (s.historyCount : Int) - 1 then
    recallLine cols { s with historyCursor := s.historyCursor + 1 } line
  else some (s, line)

/-- Down arrow: history forward. -/
def downKey : Option (Shell × Line) :=
  if 0 ≤ s.historyCursor then
    let s := { s with historyCursor := s.historyCursor - 1 }
    if s.historyCursor = -1 then
      some (redrawn cols { s with cursorPos := 0 } { line with len := 0 })
    else recallLine cols s line
  else some (s, line)

/-- Printable characters. -/
def printableKey (c : UInt8) : Option (Shell × Line) :=
  let maxLen := cols - 2
  if line.len < maxLen then do
    let buf ← shiftUp line.buf s.cursorPos line.len
    let _ ← buf[s.cursorPos]?
    pure
      (redrawn cols { s with cursorPos := s.cursorPos + 1 } ⟨buf.set s.cursorPos c, line.len + 1⟩)
  else some (s, line)

/-- The match on a key that is not Enter. -/
def editKey (c : UInt8) : Option (Shell × Line) :=
  if c = 0x08 ∨ c = 0x7F then backspaceKey cols s line
  else if c = 0x03 then leftKey s line
  else if c = 0x04 then rightKey s line
  else if c = 0x01 then upKey cols s line
  else if c = 0x02 then downKey cols s line
  else if 0x20 ≤ c ∧ c < 0x7F then printableKey cols s line c
  else some (s, line)

end

/-- The start of a round of `run`: the prompt and an empty line. -/
def startLine (s : Shell) : Shell × Line :=
  ({ s.draw [.write PROMPT, .showCursor] with cursorPos := 0, historyCursor := -1 },
    ⟨replicate MAX_CMD 0, 0⟩)

/-- The key Enter. -/
def isEnter (c : UInt8) : Bool := c = 0x0A ∨ c = 0x0D

/-- Enter, as far as the history. -/
def enterLine (s : Shell) (line : Line) : Option Shell :=
  let s := s.draw [.putchar 0x0A]
  if 0 < line.len then s.historyPush (line.buf.take line.len) else some s

/-- The shell in front of a key, and the commands that it has run. -/
structure Console where
  shell : Shell
  line : Line
  executed : List (List UInt8)
  deriving DecidableEq, Repr

/-- The console at the start of a line. -/
def Console.start (s : Shell) : Console := ⟨s.startLine.1, s.startLine.2, []⟩

/-- What `run` does with a key. After Enter the command is run, if there is one, and the next line
starts. -/
def Console.key (cols : Nat) (t : Console) (c : UInt8) : Option Console :=
  if isEnter c then do
    let s ← t.shell.enterLine t.line
    let (s, line) := s.startLine
    pure ⟨s, line, if t.line.len = 0 then t.executed
      else t.executed ++ [t.line.buf.take t.line.len]⟩
  else do
    let (s, line) ← t.shell.editKey cols t.line c
    pure { t with shell := s, line := line }

/-! ## The history -/

/-- The lines of the history, the last one first. -/
def history (s : Shell) : List (List UInt8) :=
  (zipWith (fun entry len => entry.take len) s.historyEntries s.historyLens).take s.historyCount

/-- The arrays of the history have their sizes, and no length is past the end of an array. -/
structure WellFormed (s : Shell) : Prop where
  entries : s.historyEntries.length = HISTORY_SIZE
  lens : s.historyLens.length = HISTORY_SIZE
  entry : ∀ e ∈ s.historyEntries, e.length = MAX_CMD
  len_le : ∀ n ∈ s.historyLens, n ≤ MAX_CMD
  count_le : s.historyCount ≤ HISTORY_SIZE

theorem new_wellFormed : new.WellFormed where
  entries := length_replicate
  lens := length_replicate
  entry e he := by
    rw [eq_of_mem_replicate he]
    exact length_replicate
  len_le n hn := by
    rw [eq_of_mem_replicate hn]
    exact Nat.zero_le _
  count_le := Nat.zero_le _

section History

variable {s : Shell}

theorem WellFormed.length_history (hs : s.WellFormed) : s.history.length = s.historyCount := by
  have hcount := hs.count_le
  rw [history, length_take, length_zipWith, hs.entries, hs.lens]
  omega

theorem history_getElem? (s : Shell) (k : Nat) : s.history[k]? = if k < s.historyCount then
      (s.historyEntries[k]?).bind fun entry => (s.historyLens[k]?).map entry.take else none := by
  rw [history, getElem?_take, getElem?_zipWith]
  cases s.historyEntries[k]? <;> cases s.historyLens[k]? <;> rfl

theorem WellFormed.historyGet (hs : s.WellFormed) {idx : Nat} (hidx : idx < s.history.length) :
    s.historyGet idx = some s.history[idx] ∧ s.history[idx].length ≤ MAX_CMD := by
  have hcount := hs.count_le
  rw [hs.length_history] at hidx
  have hin : idx < s.historyEntries.length ∧ idx < s.historyLens.length := by
    rw [hs.entries, hs.lens]
    omega
  obtain ⟨entry, hentry⟩ : ∃ entry, s.historyEntries[idx]? = some entry :=
    ⟨_, getElem?_eq_getElem hin.1⟩
  obtain ⟨len, hlen⟩ : ∃ len, s.historyLens[idx]? = some len :=
    ⟨_, getElem?_eq_getElem hin.2⟩
  have hsize := hs.entry entry (mem_of_getElem? hentry)
  have hle := hs.len_le len (mem_of_getElem? hlen)
  have hline : s.history[idx]? = some (entry.take len) := by
    rw [history_getElem?, if_pos hidx, hentry, hlen]
    rfl
  obtain ⟨_, hline⟩ := List.getElem?_eq_some_iff.mp hline
  constructor
  · rw [Shell.historyGet, if_pos hidx, hentry, hlen, hline]
    simp [hsize, hle]
  · rw [hline, length_take]
    omega

theorem copyFront_eq {array bytes : List UInt8} (h : bytes.length ≤ array.length) :
    copyFront array bytes = some (bytes ++ array.drop bytes.length) := if_pos h

/-- The arrays after `history_push`: a new first line, and the others one place on. -/
theorem history_pushed (hs : s.WellFormed) {entries : List (List UInt8)} {lens : List Nat}
    {entry buf : List UInt8} {t : Shell}
    (hentries : ∀ k, entries[k]? = if 0 < k ∧ k ≤ min s.historyCount (HISTORY_SIZE - 1) then
      s.historyEntries[k - 1]? else s.historyEntries[k]?)
    (hlens : ∀ k, lens[k]? = if 0 < k ∧ k ≤ min s.historyCount (HISTORY_SIZE - 1) then
      s.historyLens[k - 1]? else s.historyLens[k]?)
    (hin : 0 < entries.length ∧ 0 < lens.length) (hentry : entry.take buf.length = buf)
    (ht : t.historyEntries = entries.set 0 entry) (ht' : t.historyLens = lens.set 0 buf.length)
    (hcount : t.historyCount = min (s.historyCount + 1) HISTORY_SIZE) :
    t.history = (buf :: s.history).take HISTORY_SIZE := by
  have hle := hs.count_le
  apply ext_getElem?
  intro k
  rw [history_getElem?, hcount, ht, ht', getElem?_take]
  cases k with
  | zero => simp [hin, hentry, HISTORY_SIZE]
  | succ k =>
    rw [getElem?_set_ne (by omega), getElem?_set_ne (by omega), hentries, hlens,
      getElem?_cons_succ, history_getElem?]
    by_cases hk : k + 1 < min (s.historyCount + 1) HISTORY_SIZE
    · have hmoved : 0 < k + 1 ∧ k + 1 ≤ min s.historyCount (HISTORY_SIZE - 1) := by omega
      rw [if_pos hk, if_pos hmoved, if_pos hmoved, if_pos (by omega), if_pos (by omega)]
      rfl
    · rw [if_neg hk]
      split
      · rw [if_neg (by omega)]
      · rfl

/-- **A command that is pushed is the first line of the history**, and of the others 63 stay. -/
theorem WellFormed.historyPush (hs : s.WellFormed) {buf : List UInt8} (hne : buf ≠ [])
    (hle : buf.length ≤ MAX_CMD) : ∃ s', s.historyPush buf = some s' ∧ s'.WellFormed ∧
      s'.history = (buf :: s.history).take HISTORY_SIZE := by
  have hcount := hs.count_le
  have hpos : 0 < buf.length := length_pos_iff.mpr hne
  have hmin : min buf.length MAX_CMD = buf.length := Nat.min_eq_left hle
  have hshift : min s.historyCount (HISTORY_SIZE - 1) < HISTORY_SIZE := by
    simp only [HISTORY_SIZE]
    omega
  have hshift' := hshift.trans_eq hs.lens.symm
  replace hshift := hshift.trans_eq hs.entries.symm
  obtain ⟨entries, hentries, hlength, hcells⟩ := shiftUp_cells (Nat.zero_le _) hshift
  obtain ⟨lens, hlens, hlength', hcells'⟩ := shiftUp_cells (Nat.zero_le _) hshift'
  have hentry : ∀ e ∈ entries, e.length = MAX_CMD := fun e he =>
    hs.entry e (shiftUp_subset (Nat.zero_le _) hshift hentries he)
  have hlen : ∀ n ∈ lens, n ≤ MAX_CMD := fun n hn =>
    hs.len_le n (shiftUp_subset (Nat.zero_le _) hshift' hlens hn)
  have hin : 0 < entries.length ∧ 0 < lens.length := by
    rw [hlength, hlength', hs.entries, hs.lens]
    decide
  obtain ⟨front, hfront⟩ : ∃ front, entries[0]? = some front :=
    ⟨_, getElem?_eq_getElem hin.1⟩
  obtain ⟨n, hn⟩ : ∃ n, lens[0]? = some n := ⟨_, getElem?_eq_getElem hin.2⟩
  have hsize := hentry front (mem_of_getElem? hfront)
  have hnext : (if s.historyCount < HISTORY_SIZE then s.historyCount + 1 else s.historyCount) =
      min (s.historyCount + 1) HISTORY_SIZE := by
    split <;> omega
  refine ⟨{ s with
    historyEntries := entries.set 0 (buf ++ front.drop buf.length)
    historyLens := lens.set 0 buf.length
    historyCount := min (s.historyCount + 1) HISTORY_SIZE }, ?_, ⟨?_, ?_, ?_, ?_, ?_⟩, ?_⟩
  · rw [Shell.historyPush, hmin, if_neg (by omega)]
    simp [hentries, hlens, hfront, hn, hnext, copyFront_eq (hle.trans_eq hsize.symm)]
  · exact length_set.trans (hlength.trans hs.entries)
  · exact length_set.trans (hlength'.trans hs.lens)
  · intro e he
    rcases mem_or_eq_of_mem_set he with he | rfl
    · exact hentry e he
    · rw [length_append, length_drop, hsize]
      omega
  · intro m hm
    rcases mem_or_eq_of_mem_set hm with hm | rfl
    · exact hlen m hm
    · exact hle
  · exact Nat.min_le_right _ _
  · exact history_pushed hs hcells hcells' hin (take_left' rfl) rfl rfl rfl

end History

/-! ## The line -/

/-- The bytes in use are the line of the editor, and the two cursors are its cursors. -/
structure Edits (s : Shell) (line : Line) (e : Editor UInt8) : Prop where
  buf : line.buf.length = MAX_CMD
  len_le : line.len ≤ MAX_CMD
  cursor_le : s.cursorPos ≤ line.len
  text : line.buf.take line.len = e.text
  cursor : s.cursorPos = e.cursor
  back : s.historyCursor + 1 = e.back
  back_le : e.back ≤ s.historyCount

/-- The history is not touched. -/
structure Kept (s s' : Shell) : Prop where
  entries : s'.historyEntries = s.historyEntries
  lens : s'.historyLens = s.historyLens
  count : s'.historyCount = s.historyCount

section Line

variable {s s' : Shell} {line : Line} {e : Editor UInt8} {cols : Nat}

theorem Kept.wellFormed (h : Kept s s') (hs : s.WellFormed) : s'.WellFormed where
  entries := h.entries ▸ hs.entries
  lens := h.lens ▸ hs.lens
  entry := h.entries ▸ hs.entry
  len_le := h.lens ▸ hs.len_le
  count_le := h.count ▸ hs.count_le

theorem Kept.history (h : Kept s s') : s'.history = s.history := by
  rw [Shell.history, Shell.history, h.entries, h.lens, h.count]

theorem Edits.length (h : Edits s line e) : e.text.length = line.len := by
  rw [← h.text, length_take, h.buf]
  exact Nat.min_eq_left h.len_le

/-- The result of a key: no index is past the end, the history is kept, and the line is that of the
editor `e`. -/
def Steps (s : Shell) (result : Option (Shell × Line)) (e : Editor UInt8) : Prop :=
  ∃ r, result = some r ∧ Kept s r.1 ∧ Edits r.1 r.2 e

theorem Edits.stays (h : Edits s line e) : Steps s (some (s, line)) e :=
  ⟨_, rfl, ⟨rfl, rfl, rfl⟩, h⟩

variable {history : List (List UInt8)}

variable (h : Edits s line e)
include h

theorem backspaceKey_steps :
    Steps s (backspaceKey cols s line) (e.step (cols - 2) history .backspace) := by
  have hlen := h.len_le
  have hcursor := h.cursor_le
  rw [backspaceKey, Editor.step, ← h.cursor]
  by_cases hpos : 0 < s.cursorPos
  · obtain ⟨buf, hbuf, hlength, htake⟩ := shiftDown_take hpos hcursor (hlen.trans_eq h.buf.symm)
    rw [if_pos ⟨hpos, by omega⟩, if_neg hpos.ne', hbuf]
    refine ⟨_, rfl, ⟨rfl, rfl, rfl⟩, hlength.trans h.buf, (Nat.sub_le _ _).trans hlen, ?_, ?_, rfl,
      h.back, h.back_le⟩
    · exact Nat.sub_le_sub_right hcursor 1
    · exact htake.trans (by rw [h.text])
  · rw [if_neg fun h => hpos h.1, if_pos (Nat.eq_zero_of_not_pos hpos)]
    exact h.stays

theorem leftKey_steps : Steps s (leftKey s line) (e.step (cols - 2) history .left) := by
  have hcursor := h.cursor_le
  rw [leftKey, Editor.step, ← h.cursor]
  by_cases hpos : 0 < s.cursorPos
  · rw [if_pos hpos]
    exact ⟨_, rfl, ⟨rfl, rfl, rfl⟩, h.buf, h.len_le, (Nat.sub_le _ _).trans hcursor, h.text, rfl,
      h.back, h.back_le⟩
  · rw [if_neg hpos]
    refine ⟨_, rfl, ⟨rfl, rfl, rfl⟩, h.buf, h.len_le, hcursor, h.text, ?_, h.back, h.back_le⟩
    dsimp only
    omega

theorem rightKey_steps : Steps s (rightKey s line) (e.step (cols - 2) history .right) := by
  have hcursor := h.cursor_le
  have hlen := h.len_le
  rw [rightKey, Editor.step, h.length, ← h.cursor]
  by_cases hpos : s.cursorPos < line.len
  · have hin : s.cursorPos < line.buf.length := by
      rw [h.buf]
      omega
    rw [if_pos hpos, getElem?_eq_getElem hin]
    exact ⟨_, rfl, ⟨rfl, rfl, rfl⟩, h.buf, hlen, hpos, h.text, (Nat.min_eq_left hpos).symm, h.back,
      h.back_le⟩
  · rw [if_neg hpos]
    refine ⟨_, rfl, ⟨rfl, rfl, rfl⟩, h.buf, hlen, hcursor, h.text, ?_, h.back, h.back_le⟩
    dsimp only
    omega

omit h in
theorem printableKey_steps (hcols : cols ≤ 258) (h : Edits s line e) (c : UInt8) :
    Steps s (printableKey cols s line c) (e.step (cols - 2) history (.insert c)) := by
  have hcursor := h.cursor_le
  rw [printableKey, Editor.step, h.length, ← h.cursor]
  by_cases hroom : line.len < cols - 2
  · have hlen : line.len < line.buf.length := by
      rw [h.buf, MAX_CMD]
      omega
    obtain ⟨buf, hbuf, hlength, htake⟩ := shiftUp_take hcursor hlen c
    rw [if_pos hroom, if_neg (by omega), hbuf]
    dsimp only [Option.bind_eq_bind, Option.bind_some]
    rw [getElem?_eq_getElem (by omega)]
    refine ⟨_, rfl, ⟨rfl, rfl, rfl⟩, length_set.trans (hlength.trans h.buf), ?_,
      Nat.succ_le_succ hcursor, ?_, rfl, h.back, h.back_le⟩
    · exact hlen.trans_eq h.buf
    · exact htake.trans (by rw [h.text])
  · rw [if_neg hroom, if_pos (by omega)]
    exact h.stays

/-- A line of the history in place of the one that is edited. -/
theorem recallLine_steps (hs : s.WellFormed) (hkept : Kept s s') {n : Nat}
    (hn : n < s.history.length) (hcursor : s'.historyCursor = n) :
    Steps s (recallLine cols s' line) (.recall s.history n) := by
  have hn' : n < s'.history.length := hkept.history ▸ hn
  obtain ⟨hget, hlen⟩ := (hkept.wellFormed hs).historyGet hn'
  have hline : s'.history[n] = s.history[n] := by simp only [hkept.history]
  rw [hline] at hget hlen
  have hcopy := copyFront_eq (hlen.trans_eq h.buf.symm)
  have hrun : recallLine cols s' line = some (redrawn cols
      { s' with cursorPos := s.history[n].length }
      ⟨s.history[n] ++ line.buf.drop s.history[n].length, s.history[n].length⟩) := by
    rw [recallLine, hcursor]
    simp [hget, hcopy, Nat.min_eq_left hlen]
  rw [hrun, Editor.recall, getElem?_eq_getElem hn]
  refine ⟨_, rfl, ⟨hkept.entries, hkept.lens, hkept.count⟩, ?_, hlen, Nat.le_refl _,
    take_left' rfl, rfl, ?_, ?_⟩
  · have hbuf := h.buf
    change (_ ++ _ : List UInt8).length = _
    rw [length_append, length_drop]
    omega
  · exact congrArg (· + 1) hcursor
  · exact Nat.succ_le_of_lt (hkept.count ▸ hs.length_history ▸ hn)

theorem upKey_steps (hs : s.WellFormed) :
    Steps s (upKey cols s line) (e.step (cols - 2) s.history .up) := by
  have hback := h.back
  rw [upKey, Editor.step, hs.length_history]
  by_cases hup : e.back < s.historyCount
  · rw [if_pos (by omega), if_pos hup]
    have hkept : Kept s { s with historyCursor := s.historyCursor + 1 } := ⟨rfl, rfl, rfl⟩
    exact recallLine_steps h hs hkept (hs.length_history ▸ hup) h.back
  · rw [if_neg (by omega), if_neg hup]
    exact h.stays

theorem downKey_steps (hs : s.WellFormed) :
    Steps s (downKey cols s line) (e.step (cols - 2) s.history .down) := by
  have hback := h.back
  have hback_le := h.back_le
  rw [downKey, Editor.step]
  rcases hn : e.back with _ | _ | n
  · rw [if_neg (by omega)]
    exact h.stays
  · rw [if_pos (by omega), if_pos (by dsimp only; omega)]
    exact ⟨_, rfl, ⟨rfl, rfl, rfl⟩, h.buf, Nat.zero_le _, Nat.le_refl _, rfl, rfl,
      by dsimp only [redrawn, redrawInput, draw, Editor.empty]; omega, Nat.zero_le _⟩
  · rw [if_pos (by omega), if_neg (by dsimp only; omega)]
    have hkept : Kept s { s with historyCursor := s.historyCursor - 1 } := ⟨rfl, rfl, rfl⟩
    refine recallLine_steps h hs hkept ?_ ?_
    · rw [hs.length_history]
      omega
    · dsimp only
      omega

end Line

/-! ## Refinement -/

/-- The command that a key other than Enter stands for. The other keys are ignored. -/
def keyCommand (c : UInt8) : Option (Command UInt8) :=
  if c = 0x08 ∨ c = 0x7F then some .backspace
  else if c = 0x03 then some .left
  else if c = 0x04 then some .right
  else if c = 0x01 then some .up
  else if c = 0x02 then some .down
  else if 0x20 ≤ c ∧ c < 0x7F then some (.insert c)
  else none

/-- A key other than Enter in the abstract editor: a line grows to `cols - 2` bytes. -/
def editorKey (cols : Nat) (history : List (List UInt8)) (e : Editor UInt8) (c : UInt8) :
    Editor UInt8 :=
  match keyCommand c with
  | some command => e.step (cols - 2) history command
  | none => e

/-- A key in the abstract editor. -/
def press (cols : Nat) (a : Session UInt8) (c : UInt8) : Session UInt8 :=
  if isEnter c then a.step (cols - 2) HISTORY_SIZE .enter
  else { a with editor := editorKey cols a.history a.editor c }

/-- The console stands for a session of the abstract editor. -/
structure Refines (t : Console) (a : Session UInt8) : Prop where
  wellFormed : t.shell.WellFormed
  edits : Edits t.shell t.line a.editor
  history : t.shell.history = a.history
  executed : t.executed = a.entered

section Refinement

variable {s : Shell} {line : Line} {e : Editor UInt8} {cols : Nat} {t : Console}
  {a : Session UInt8}

/-- Every key that is not Enter does what its command does. -/
theorem editKey_steps (hcols : cols ≤ 258) (hs : s.WellFormed) (h : Edits s line e) (c : UInt8) :
    Steps s (editKey cols s line c) (editorKey cols s.history e c) := by
  unfold editKey editorKey keyCommand
  split
  · exact backspaceKey_steps h
  split
  · exact leftKey_steps h
  split
  · exact rightKey_steps h
  split
  · exact upKey_steps h hs
  split
  · exact downKey_steps h hs
  split
  · exact printableKey_steps hcols h c
  · exact h.stays

/-- The start of a line. -/
theorem startLine_edits (s : Shell) : Edits s.startLine.1 s.startLine.2 .empty where
  buf := length_replicate
  len_le := Nat.zero_le _
  cursor_le := Nat.le_refl _
  text := rfl
  cursor := rfl
  back := rfl
  back_le := Nat.zero_le _

theorem startLine_kept (s : Shell) : Kept s s.startLine.1 := ⟨rfl, rfl, rfl⟩

/-- Enter: the line is pushed to the history, and the next one starts. -/
theorem enterLine_refines (cols : Nat) (h : Refines t a) :
    ∃ s, t.shell.enterLine t.line = some s ∧ s.WellFormed ∧
      s.history = (a.step (cols - 2) HISTORY_SIZE .enter).history ∧
      (if t.line.len = 0 then t.executed else t.executed ++ [t.line.buf.take t.line.len]) =
        (a.step (cols - 2) HISTORY_SIZE .enter).entered := by
  have hedits := h.edits
  have hkept : Kept t.shell (t.shell.draw [.putchar 0x0A]) := ⟨rfl, rfl, rfl⟩
  have hs := hkept.wellFormed h.wellFormed
  have hhistory : (t.shell.draw [.putchar 0x0A]).history = a.history :=
    hkept.history.trans h.history
  have hlength := hedits.length
  rw [enterLine, Session.step]
  rcases htext : a.editor.text with _ | ⟨b, text⟩
  · rw [htext, length_nil] at hlength
    rw [if_neg (by omega), if_pos hlength.symm]
    exact ⟨_, rfl, hs, hhistory, h.executed⟩
  · rw [htext, length_cons] at hlength
    rw [if_pos (by omega), if_neg (by omega), hedits.text, htext, h.executed]
    have hfits : (b :: text).length ≤ MAX_CMD := by
      rw [length_cons, hlength]
      exact hedits.len_le
    obtain ⟨s, hpush, hwell, hpushed⟩ := hs.historyPush (cons_ne_nil b text) hfits
    exact ⟨s, hpush, hwell, by rw [hpushed, hhistory], rfl⟩

/-- **One key**: no index is past the end, and the console goes on standing for the session. -/
theorem key_refines (hcols : cols ≤ 258) (h : Refines t a) (c : UInt8) :
    ∃ t', t.key cols c = some t' ∧ Refines t' (press cols a c) := by
  by_cases hc : isEnter c = true
  · rw [Console.key, press, if_pos hc, if_pos hc]
    obtain ⟨s, henter, hs, hhistory, hexecuted⟩ := enterLine_refines cols h
    have hkept := startLine_kept s
    rw [henter]
    refine ⟨_, rfl, hkept.wellFormed hs, ?_, hkept.history.trans hhistory, hexecuted⟩
    have hempty : (a.step (cols - 2) HISTORY_SIZE .enter).editor = .empty := by
      rw [Session.step]
      split <;> rfl
    rw [hempty]
    exact startLine_edits s
  · rw [Console.key, press, if_neg hc, if_neg hc]
    obtain ⟨r, hrun, hkept, hedits⟩ := editKey_steps hcols h.wellFormed h.edits c
    rw [hrun]
    refine ⟨_, rfl, hkept.wellFormed h.wellFormed, ?_, hkept.history.trans h.history, h.executed⟩
    rw [← h.history]
    exact hedits

/-- The session of the abstract editor at the start of a line. -/
def sessionStart (s : Shell) : Session UInt8 := ⟨.empty, s.history, []⟩

theorem start_refines (hs : s.WellFormed) : Refines (Console.start s) (sessionStart s) where
  wellFormed := (startLine_kept s).wellFormed hs
  edits := startLine_edits s
  history := (startLine_kept s).history
  executed := rfl

/-- A whole sequence of keys. -/
theorem keys_refine (hcols : cols ≤ 258) (keys : List UInt8) (h : Refines t a) :
    ∃ t', runSteps (Console.key cols) t keys = some t' ∧
      Refines t' (keys.foldl (press cols) a) := by
  induction keys generalizing t a with
  | nil => exact ⟨t, rfl, h⟩
  | cons c keys ih =>
    obtain ⟨t₁, hkey, h₁⟩ := key_refines hcols h c
    obtain ⟨t₂, hrest, h₂⟩ := ih h₁
    exact ⟨t₂, by rw [runSteps, hkey, Option.bind_some, hrest], h₂⟩

/-- **The line editor of the shell is a line with a cursor.** From the start of a line, with any
history, every sequence of keys (Enter among them or not) runs without an index past the end. The
bytes in use and the cursor are those of the abstract editor, the cursor is in the line and the line
in the array, the commands run are the lines entered, and the history has them in front. -/
theorem shell_refines_editor (hcols : 3 ≤ cols ∧ cols ≤ 258) (hs : s.WellFormed)
    (keys : List UInt8) : ∃ t, runSteps (Console.key cols) (Console.start s) keys = some t ∧
      t.shell.WellFormed ∧
      let a := keys.foldl (press cols) (sessionStart s)
      (t.line.buf.take t.line.len, t.shell.cursorPos) = (a.editor.text, a.editor.cursor) ∧
      t.shell.cursorPos ≤ t.line.len ∧ t.line.len ≤ 256 ∧
      t.executed = a.entered ∧ t.shell.history = a.history := by
  obtain ⟨t, hrun, h⟩ := keys_refine hcols.2 keys (start_refines hs)
  refine ⟨t, hrun, h.wellFormed, ?_⟩
  exact ⟨Prod.ext h.edits.text h.edits.cursor, h.edits.cursor_le, h.edits.len_le, h.executed,
    h.history⟩

theorem shell_refines_editor_new :
    new.WellFormed ∧ ∃ t, runSteps (Console.key 80) (Console.start new) [0x6C, 0x73, 0x0A, 0x01] =
      some t ∧ t.executed = [[0x6C, 0x73]] ∧ t.line.buf.take t.line.len = [0x6C, 0x73] := by
  obtain ⟨t, hrun, -, htext, -, -, hexecuted, -⟩ :=
    shell_refines_editor (show 3 ≤ 80 ∧ 80 ≤ 258 by decide) new_wellFormed [0x6C, 0x73, 0x0A, 0x01]
  refine ⟨new_wellFormed, t, hrun, ?_, ?_⟩
  · rw [hexecuted]
    decide +kernel
  · refine (Prod.ext_iff.mp htext).1.trans ?_
    decide +kernel

end Refinement

end Shell

end PlanckOS

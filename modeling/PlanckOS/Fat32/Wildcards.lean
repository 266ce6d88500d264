import PlanckOS.Fat32.Enumerate
import PlanckOS.Fat32.Names
import PlanckOS.Lib.Glob
import Mathlib.Data.List.TakeWhile

/-!
# Wildcard patterns of `f_findfirst`

`match_pattern` against the meaning of a pattern (`Lib.Glob`): `*` stands for any sequence of
characters, `?` for any single one, and every other byte for itself.

Two limits of the code stand between the two. `f_findfirst` keeps 11 bytes of a pattern, and behind
a `*` only the positions up to 11 are tried, so that in a name of 12 characters a `*` does not reach
the end. `usedTokens` is what is left of a pattern under these limits, and
`matchPatternInner_glob` says that a pattern without NUL bytes matches exactly the names that
`usedTokens` describes. So `f_readdir` yields the names that match the pattern exactly when the two
patterns agree on every name of the directory (`findfirst_globs_iff`).

A NUL byte in the pattern is compared with the padding of a name. `Overruns` says when a pattern has
so many of them that byte 13 of the name is read, and `match_pattern` panics exactly then
(`match_in_bounds_iff`).
-/

set_option autoImplicit false

namespace PlanckOS.Fat32

open Lib.Fallible Lib.Glob FatVolume List

variable {pattern name text : Bytes} {e : Entry} {rest : Nat → Option Bool} {fuel length : Nat}
  {c : UInt8}

/-! ## The meaning of a pattern -/

/-- What a byte of a pattern stands for. -/
def patternToken (b : UInt8) : Token UInt8 :=
  if b = 0x2A then .star else if b = 0x3F then .any else .lit b

/-- The whole name matches the pattern. -/
def GlobMatches (pattern name : Bytes) : Prop := Lib.Glob.Matches (pattern.map patternToken) name
  deriving Decidable

/-- The tokens that the driver tries at a name of the given length: behind a `*` it never tries
position 12. -/
def usedTokens (pattern : Bytes) (length : Nat) : List (Token UInt8) :=
  if length = 12 then trim (pattern.map patternToken) else pattern.map patternToken

/-- The name matches what the driver uses of the pattern: 11 bytes, and in a name of 12 characters
not the `*` at the end. -/
def UsedMatches (pattern name : Bytes) : Prop :=
  Lib.Glob.Matches (usedTokens (pattern.take 11) name.length) name
  deriving Decidable

/-- A pattern within the limits is used as it is. -/
theorem usedMatches_iff_of_short (hlen : pattern.length ≤ 11)
    (hlast : name.length = 12 → pattern.getLast? ≠ some 0x2A) :
    UsedMatches pattern name ↔ GlobMatches pattern name := by
  have htokens : usedTokens pattern name.length = pattern.map patternToken := by
    rw [usedTokens]
    split
    next h12 =>
      refine trim_of_last ?_
      rw [getLast?_map]
      intro h
      obtain ⟨b, hb, htok⟩ := Option.map_eq_some_iff.mp h
      have hstar : b = 0x2A := by
        rw [patternToken] at htok
        split_ifs at htok with hb'
        exact hb'
      exact hlast h12 (hstar ▸ hb)
    next => rfl
  rw [UsedMatches, GlobMatches, take_of_length_le hlen, htokens]

/-! ## The bytes of a name -/

/-- The 13 bytes of a name with the text: what `read_dir_entry_name` returns. -/
structure PaddedName (name text : Bytes) : Prop where
  eq : name = text ++ replicate (13 - text.length) 0
  length_le : text.length ≤ 12
  ne_zero : ∀ b ∈ text, b ≠ 0
  ne_space : ∀ b ∈ text, b ≠ 0x20

/-- The characters of a name. -/
def nameText (name : Bytes) : Bytes := name.takeWhile fun b => b ≠ 0

theorem readDirEntryName_padded (h : readDirEntryName e = some name) :
    PaddedName name (decodedName e) := by
  rw [readDirEntryName] at h
  split at h
  · cases h
  · exact ⟨(Option.some.inj h).symm, decodedName_length_le e, fun b hb => (decodedName_ne hb).2,
      fun b hb => (decodedName_ne hb).1⟩

section Padded

variable {pat : Bytes} {n : Nat}

variable (h : PaddedName name text)
include h

theorem PaddedName.text_eq : nameText name = text := by
  rw [nameText, h.eq, takeWhile_append_of_pos fun b hb => decide_eq_true (h.ne_zero b hb)]
  have hzeros : (replicate (13 - text.length) (0 : UInt8)).takeWhile (fun b => b ≠ 0) = [] := by
    rw [takeWhile_replicate, if_neg (by decide)]
  rw [hzeros, append_nil]

theorem PaddedName.char (hn : n < text.length) : name[n]? = some text[n] := by
  rw [h.eq, getElem?_append_left hn, getElem?_eq_getElem hn]

theorem PaddedName.zero (hn : text.length ≤ n) (hlt : n < 13) : name[n]? = some 0 := by
  rw [h.eq, getElem?_append_right hn, getElem?_replicate, if_pos (by omega)]

theorem PaddedName.behind (hn : 13 ≤ n) : name[n]? = none := by
  have := h.length_le
  rw [h.eq, getElem?_eq_none]
  rw [length_append, length_replicate]
  omega

theorem PaddedName.getD_ne_zero (hn : n < text.length) : name.getD n 0 ≠ 0 := by
  rw [getD_eq_getElem?_getD, h.char hn]
  exact h.ne_zero _ (getElem_mem hn)

theorem PaddedName.getD_eq_zero (hn : text.length ≤ n) : name.getD n 0 = 0 := by
  rw [getD_eq_getElem?_getD]
  rcases Nat.lt_or_ge n 13 with hlt | hge
  · rw [h.zero hn hlt]
    rfl
  · rw [h.behind hge]
    rfl

/-! ## A pattern without NUL bytes -/

omit h in
/-- A position that is the only one to try. -/
theorem tried_self_iff {k l : Nat} (hk : n ≤ k) (hl : n ≤ l) (honly : k ≤ n ∨ l ≤ n) :
    rest n = some true ↔ ∃ m, n ≤ m ∧ m ≤ k ∧ m ≤ l ∧ rest m = some true := by
  constructor
  · intro hr
    exact ⟨n, le_rfl, hk, hl, hr⟩
  · rintro ⟨m, hm, hmk, hml, hr⟩
    have heq : m = n := by omega
    rwa [heq] at hr

/-- The loop behind a `*` finds a position from which the rest matches, if it tries it. -/
theorem matchStar_true_iff (hrest : ∀ m ≤ text.length, rest m ≠ none) (hn : n ≤ text.length) :
    matchStar name rest n fuel = some true ↔
      ∃ m, n ≤ m ∧ m ≤ n + fuel ∧ m ≤ text.length ∧ rest m = some true := by
  induction fuel generalizing n with
  | zero => exact tried_self_iff le_rfl hn (.inl le_rfl)
  | succ fuel ih =>
    rw [matchStar]
    rcases Nat.lt_or_ge n text.length with hlt | hge
    · rw [if_pos (h.getD_ne_zero hlt)]
      cases hr : rest n with
      | none => exact absurd hr (hrest n hn)
      | some verdict =>
        cases verdict with
        | true => exact iff_of_true rfl ⟨n, le_rfl, Nat.le_add_right _ _, hn, hr⟩
        | false =>
          refine (ih hlt).trans ⟨?_, ?_⟩
          · rintro ⟨m, hm, hmk, hml, hrm⟩
            exact ⟨m, by omega, by omega, hml, hrm⟩
          · rintro ⟨m, hm, hmk, hml, hrm⟩
            have hne : m ≠ n := by
              rintro rfl
              rw [hr] at hrm
              cases hrm
            exact ⟨m, by omega, by omega, hml, hrm⟩
    · -- the padding ends the loop
      rw [if_neg (not_not.mpr (h.getD_eq_zero hge))]
      exact tried_self_iff (Nat.le_add_right _ _) hn (.inr hge)

omit h in
/-- The tokens behind a `*`: the star is used unless nothing but stars follow in a name of 12
characters. -/
theorem usedTokens_star : usedTokens (0x2A :: pat) length =
    if length = 12 ∧ (usedTokens pat length).isEmpty then []
      else .star :: usedTokens pat length := by
  by_cases h12 : length = 12
  · rw [usedTokens, usedTokens, if_pos h12, if_pos h12]
    show (if (trim (pat.map patternToken)).isEmpty then _ else _) = _
    simp only [h12, true_and]
  · rw [usedTokens, usedTokens, if_neg h12, if_neg h12, if_neg fun h => h12 h.1]
    rfl

omit h in
theorem usedTokens_any : usedTokens (0x3F :: pat) length = .any :: usedTokens pat length := by
  rw [usedTokens, usedTokens]
  split <;> rfl

omit h in
theorem usedTokens_lit (hstar : c ≠ 0x2A) (hany : c ≠ 0x3F) :
    usedTokens (c :: pat) length = .lit c :: usedTokens pat length := by
  have htok : patternToken c = .lit c := by rw [patternToken, if_neg hstar, if_neg hany]
  rw [usedTokens, usedTokens, map_cons, htok]
  split <;> rfl

omit h in
/-- What is used of a pattern in a name of 12 characters does not match the empty word. -/
theorem usedTokens_nil (h12 : length = 12)
    (h : Lib.Glob.Matches (usedTokens pat length) []) : usedTokens pat length = [] := by
  rw [usedTokens, if_pos h12] at h ⊢
  exact trim_matches_nil h

/-- The positions that are tried behind a `*` are enough for the tokens that are used. -/
theorem usedTokens_star_matches (hn : n ≤ text.length) :
    (∃ m, n ≤ m ∧ m ≤ n + (11 - n) ∧ m ≤ text.length ∧
      Lib.Glob.Matches (usedTokens pat text.length) (text.drop m)) ↔
    Lib.Glob.Matches (usedTokens (0x2A :: pat) text.length) (text.drop n) := by
  have hle := h.length_le
  rw [usedTokens_star]
  split
  next htrim =>
    obtain ⟨h12, hempty⟩ := htrim
    rw [isEmpty_iff.mp hempty]
    simp only [matches_nil_iff, drop_eq_nil_iff]
    constructor
    · rintro ⟨m, hm, hmk, hml, hend⟩
      omega
    · intro hend
      exact ⟨n, le_rfl, Nat.le_add_right _ _, hn, hend⟩
  next htrim =>
    rw [matches_star_iff, length_drop]
    constructor
    · rintro ⟨m, hm, -, hml, hmatch⟩
      refine ⟨m - n, by omega, ?_⟩
      rwa [drop_drop, Nat.add_sub_cancel' hm]
    · rintro ⟨k, hk, hmatch⟩
      rw [drop_drop] at hmatch
      refine ⟨n + k, Nat.le_add_right _ _, ?_, by omega, hmatch⟩
      -- position 12 would leave the empty word to the tokens
      have hne : n + k ≠ 12 := by
        intro h12
        have hlen : text.length = 12 := by omega
        rw [drop_eq_nil_of_le (by omega)] at hmatch
        exact htrim ⟨hlen, isEmpty_iff.mpr (usedTokens_nil hlen hmatch)⟩
      omega

/-- A pattern that is used up matches at the end of the name. -/
theorem matchPatternInner_end (hn : n ≤ text.length) :
    matchPatternInner name n [] = some (decide (n = text.length)) := by
  have hle := h.length_le
  rw [matchPatternInner]
  rcases Nat.lt_or_eq_of_le hn with hlt | rfl
  · have hmem := getElem_mem hlt
    rw [h.char hlt, Option.map_some]
    simp [h.ne_zero _ hmem, h.ne_space _ hmem, hlt.ne]
  · rw [h.zero le_rfl (by omega), Option.map_some]
    simp

/-- **A pattern without NUL bytes** matches the names that its used tokens describe. -/
theorem matchPatternInner_glob (hpat : (0 : UInt8) ∉ pat) (hn : n ≤ text.length) :
    matchPatternInner name n pat = some true ↔
      Lib.Glob.Matches (usedTokens pat text.length) (text.drop n) := by
  have hle := h.length_le
  have hlast : name[12]? = some 0 := h.zero hle (by omega)
  induction pat generalizing n with
  | nil =>
    have htokens : usedTokens [] text.length = [] := by
      rw [usedTokens]
      split <;> rfl
    rw [htokens, matches_nil_iff, drop_eq_nil_iff, matchPatternInner_end h hn]
    simp only [Option.some.injEq, decide_eq_true_eq]
    omega
  | cons c pat ih =>
    have hc : c ≠ 0 := fun h => hpat (h ▸ mem_cons_self)
    have hrest : (0 : UInt8) ∉ pat := fun h => hpat (mem_cons_of_mem _ h)
    rw [matchPatternInner]
    split
    next hstar =>
      subst hstar
      rw [← usedTokens_star_matches h hn, matchStar_true_iff h
        (fun m hm => matchPatternInner_ne_none hlast hrest (hm.trans hle)) hn]
      refine exists_congr fun m => and_congr_right fun _ => and_congr_right fun _ =>
        and_congr_right fun hm => ih hrest hm
    next hstar =>
      rcases Nat.lt_or_ge n text.length with hlt | hge
      · have hmem := getElem_mem hlt
        have hdrop : text.drop n = text[n] :: text.drop (n + 1) := drop_eq_getElem_cons hlt
        rw [h.char hlt, hdrop]
        split
        next hany =>
          subst hany
          rw [usedTokens_any, matches_any_iff]
          simp only [h.ne_zero _ hmem, h.ne_space _ hmem, or_self, if_false]
          exact ih hrest hlt
        next hany =>
          rw [usedTokens_lit hstar hany, matches_lit_iff]
          simp only
          split
          next hne => simp [hne]
          next heq =>
            refine (ih hrest hlt).trans ?_
            simp [not_not.mp heq]
      · -- the padding matches no character
        rw [h.zero hge (by omega), drop_eq_nil_of_le hge]
        split
        next hany =>
          subst hany
          rw [usedTokens_any]
          simp
        next hany =>
          rw [usedTokens_lit hstar hany]
          simp [Ne.symm hc]

/-! ## NUL bytes -/

/-- The NUL bytes that a pattern compares with the padding of a name before anything else: a `*`
there stands for nothing. -/
def paddingZeros (pat : Bytes) : Nat := (pat.takeWhile fun b => b = 0 ∨ b = 0x2A).count 0

omit h in
theorem paddingZeros_star : paddingZeros (0x2A :: pat) = paddingZeros pat := by
  rw [paddingZeros, paddingZeros, takeWhile_cons_of_pos (by decide), count_cons_of_ne (by decide)]

omit h in
theorem paddingZeros_zero : paddingZeros (0 :: pat) = paddingZeros pat + 1 := by
  rw [paddingZeros, paddingZeros, takeWhile_cons_of_pos (by decide), count_cons_self]

omit h in
theorem paddingZeros_other (hstar : c ≠ 0x2A) (hzero : c ≠ 0) : paddingZeros (c :: pat) = 0 := by
  rw [paddingZeros, takeWhile_cons_of_neg (by simp [hstar, hzero]), count_nil]

/-- In the padding a `*` tries its own position only. -/
theorem matchStar_padding (hn : text.length ≤ n) : matchStar name rest n fuel = rest n := by
  cases fuel with
  | zero => rfl
  | succ fuel => rw [matchStar, if_neg (not_not.mpr (h.getD_eq_zero hn))]

/-- From a position in the padding, byte 13 of the name is read when enough NUL bytes lead there. -/
theorem matchPatternInner_padding (hn : text.length ≤ n) (h13 : n ≤ 13) :
    matchPatternInner name n pat = none ↔ 13 - n ≤ paddingZeros pat := by
  -- in the padding a NUL of the pattern goes one byte on, and byte 13 is not there
  induction pat generalizing n with
  | nil =>
    rw [matchPatternInner, Option.map_eq_none_iff]
    rcases Nat.lt_or_eq_of_le h13 with hlt | rfl
    · rw [h.zero hn hlt]
      simp [paddingZeros]
      omega
    · rw [h.behind le_rfl]
      simp
  | cons c pat ih =>
    rw [matchPatternInner]
    split
    next hstar =>
      subst hstar
      rw [matchStar_padding h hn, paddingZeros_star]
      exact ih hn h13
    next hstar =>
      rcases Nat.lt_or_eq_of_le h13 with hlt | rfl
      · rw [h.zero hn hlt]
        by_cases hzero : c = 0
        · subst hzero
          rw [if_neg (by decide), paddingZeros_zero]
          simp only [ne_eq, not_true_eq_false, if_false]
          rw [ih (by omega) hlt]
          omega
        · rw [paddingZeros_other hstar hzero]
          simp only [Ne.symm hzero, ne_eq, not_false_eq_true, if_true, true_or, ite_self]
          simp
          omega
      · rw [h.behind le_rfl]
        simp

/-- The loop behind a `*`, when the rest of the pattern is continued. -/
theorem matchStar_continue {rest' : Nat → Option Bool} {verdict : Option Bool}
    (hrest : ∀ m ≤ text.length, rest m ≠ none)
    (heq : ∀ m ≤ text.length, rest' m = if rest m = some true then verdict else some false)
    (hn : n ≤ text.length) : matchStar name rest' n fuel =
      if matchStar name rest n fuel = some true then verdict else some false := by
  induction fuel generalizing n with
  | zero => exact heq n hn
  | succ fuel ih =>
    rw [matchStar, matchStar]
    rcases Nat.lt_or_ge n text.length with hlt | hge
    · have hhere := heq n hn
      rw [if_pos (h.getD_ne_zero hlt), if_pos (h.getD_ne_zero hlt)]
      cases hr : rest n with
      | none => exact absurd hr (hrest n hn)
      | some b =>
        cases b with
        | false =>
          rw [hr, if_neg (by decide)] at hhere
          rw [hhere]
          exact ih hlt
        | true =>
          rw [hr, if_pos rfl] at hhere
          rw [hhere, if_pos rfl]
          -- a false verdict lets the loop go on, to no other result
          split
          next => rw [ih hlt, ite_self]
          next => rfl
    · rw [if_neg (not_not.mpr (h.getD_eq_zero hge)), if_neg (not_not.mpr (h.getD_eq_zero hge))]
      exact heq n hn

/-- A NUL byte in the pattern is compared behind the last character. -/
theorem matchPatternInner_append (hpat : (0 : UInt8) ∉ pat) (rest : Bytes)
    (hn : n ≤ text.length) : matchPatternInner name n (pat ++ 0 :: rest) =
      if matchPatternInner name n pat = some true then
        matchPatternInner name text.length (0 :: rest)
      else some false := by
  have hle := h.length_le
  have hlast : name[12]? = some 0 := h.zero hle (by omega)
  induction pat generalizing n with
  | nil =>
    rw [nil_append, matchPatternInner_end h hn]
    rcases Nat.lt_or_eq_of_le hn with hlt | rfl
    · rw [if_neg (by simpa using hlt.ne), matchPatternInner, if_neg (by decide),
        if_neg (by decide), h.char hlt]
      exact if_pos (h.ne_zero _ (getElem_mem hlt))
    · rw [if_pos (by simp)]
  | cons c pat ih =>
    have hc : c ≠ 0 := fun h => hpat (h ▸ mem_cons_self)
    have hrest : (0 : UInt8) ∉ pat := fun h => hpat (mem_cons_of_mem _ h)
    rw [cons_append, matchPatternInner, matchPatternInner]
    split
    next =>
      exact matchStar_continue h
        (fun m hm => matchPatternInner_ne_none hlast hrest (hm.trans hle))
        (fun m hm => ih hrest hm) hn
    next =>
      rcases Nat.lt_or_ge n text.length with hlt | hge
      · rw [h.char hlt]
        simp only
        split
        next =>
          split
          next => rfl
          next => exact ih hrest hlt
        next =>
          split
          next => rfl
          next => exact ih hrest hlt
      · rw [h.zero hge (by omega)]
        simp [Ne.symm hc]

end Padded

/-- The pattern leads past the 13 bytes of the name: what stands before its first NUL byte matches,
and behind it come enough NUL bytes for the padding. -/
def Overruns (pattern text : Bytes) : Prop :=
  let pat := pattern.take 11
  Lib.Glob.Matches (usedTokens (pat.takeWhile fun b => b ≠ 0) text.length) text ∧
    13 - text.length ≤ paddingZeros (pat.dropWhile fun b => b ≠ 0)
  deriving Decidable

theorem matchPatternInner_overruns (h : PaddedName name text) :
    matchPatternInner name 0 (pattern.take 11) = none ↔ Overruns pattern text := by
  have hle := h.length_le
  rw [Overruns]
  generalize hpat : pattern.take 11 = pat
  have hhead : (0 : UInt8) ∉ pat.takeWhile fun b => b ≠ 0 := by
    intro hmem
    have hne := mem_takeWhile_imp hmem
    simp at hne
  have hsplit := takeWhile_append_dropWhile (p := fun b : UInt8 => decide (b ≠ 0)) (l := pat)
  cases hdrop : pat.dropWhile fun b => b ≠ 0 with
  | nil =>
    -- no NUL byte
    rw [hdrop, append_nil] at hsplit
    have hlast : name[12]? = some 0 := h.zero hle (by omega)
    refine iff_of_false (matchPatternInner_ne_none hlast (hsplit ▸ hhead) (by omega)) ?_
    simp only [paddingZeros, takeWhile_nil, count_nil]
    omega
  | cons c rest =>
    have hc : c = 0 := by
      have := head?_dropWhile_not (fun b : UInt8 => decide (b ≠ 0)) pat
      rw [hdrop] at this
      simpa using this
    subst hc
    rw [hdrop] at hsplit
    have hrun := matchPatternInner_append h hhead rest (Nat.zero_le _)
    have hglob := matchPatternInner_glob h hhead (Nat.zero_le _)
    have hpadding : matchPatternInner name text.length (0 :: rest) = none ↔ _ :=
      matchPatternInner_padding h le_rfl (by omega)
    rw [hsplit] at hrun
    rw [drop_zero] at hglob
    rw [hrun, ← hglob, ← hpadding]
    split
    next hmatch => exact (and_iff_right hmatch).symm
    next hmatch => exact iff_of_false (by decide) fun hover => hmatch hover.1

/-! ## The handle of `f_findfirst` -/

section Findfirst

variable {vol : FatVolume} {d d' : Disk} {path : Bytes} {dir : Dir}

section

variable (h : fFindfirst (some vol) path pattern d = .ok dir d')
include h

/-- The handle is at the first slot of the directory. -/
theorem fFindfirst_first :
    dir.currentCluster = dir.startCluster ∧ dir.entryIndex = 0 ∧ dir.ended = false := by
  have hsat : (fFindfirst (some vol) path pattern d).Sat
      (fun dir _ => dir.currentCluster = dir.startCluster ∧ dir.entryIndex = 0 ∧ dir.ended = false)
      fun _ _ => True := by
    rw [fFindfirst, fOpendir, withVol]
    apply sat_bind
    apply sat_bind
    cases (resolvePath vol path : DevOp Disk _) d with
    | ok place d₁ => exact ⟨rfl, rfl, rfl⟩
    | err e d₁ => trivial
    | fault w => trivial
  exact hsat.of_ok h

/-- The verdict of `match_pattern` on an entry of the directory. -/
theorem fFindfirst_verdict
 (hne : pattern ≠ [])
    (name : Bytes) : dir.select name = matchPatternInner name 0 (pattern.take 11) := by
  have hpattern := fFindfirst_pattern h
  rw [Dir.select, matchPattern, if_neg, hpattern]
  intro hzero
  rw [hzero, take_zero] at hpattern
  rcases take_eq_nil_iff.mp hpattern.symm with h11 | hnil
  · cases h11
  · exact hne hnil

/-- A pattern without NUL bytes selects the names that match what is used of it. -/
theorem fFindfirst_selects
 (hne : pattern ≠ [])
    (hnul : (0 : UInt8) ∉ pattern)
    (hname : readDirEntryName e = some name) :
    dir.select name = some (decide (UsedMatches pattern (nameText name))) := by
  have hpadded := readDirEntryName_padded hname
  have hcut : (0 : UInt8) ∉ pattern.take 11 := fun hmem => hnul (mem_of_mem_take hmem)
  have hglob := matchPatternInner_glob hpadded hcut (Nat.zero_le _)
  have hsome := matchPatternInner_ne_none (readDirEntryName_last hname) hcut (Nat.zero_le 12)
  rw [drop_zero, ← hpadded.text_eq] at hglob
  rw [fFindfirst_verdict h hne]
  cases hverdict : matchPatternInner name 0 (pattern.take 11) with
  | none => exact absurd hverdict hsome
  | some b =>
    rw [hverdict, Option.some.injEq] at hglob
    rw [Option.some.injEq, Bool.eq_iff_iff, decide_eq_true_iff]
    exact hglob

end

end Findfirst

/-! ## The results -/

/-- Two filters keep the same elements exactly when they agree on them. -/
theorem filter_eq_filter_iff {α : Type} {p q : α → Bool} {l : List α} :
    l.filter p = l.filter q ↔ ∀ x ∈ l, p x = q x := by
  constructor
  · intro heq x hx
    have hmem : x ∈ l.filter p ↔ x ∈ l.filter q := by rw [heq]
    rw [mem_filter, mem_filter, and_iff_right hx, and_iff_right hx] at hmem
    exact Bool.eq_iff_iff.mpr hmem
  · exact filter_congr

/-- **Wildcard matching is glob matching within the limits.** `f_findfirst` was given a pattern
without NUL bytes. Then `match_pattern` decides on a name as the meaning of the pattern does exactly
when what is used of the pattern agrees with the whole pattern on that name, and `f_readdir` yields
the matching names of a directory, each in its place, exactly when they agree on all its names. -/
theorem findfirst_globs_iff (vol : FatVolume) (d d' : Disk) (path pattern : Bytes) (dir : Dir)
    (hspc : 0 < vol.sectorsPerCluster) (hslots : vol.slotsPerCluster < 2 ^ 16)
    (hfirst : fFindfirst (some vol) path pattern d = .ok dir d')
    (hne : pattern ≠ []) (hnul : (0 : UInt8) ∉ pattern) :
    (∀ e name, readDirEntryName e = some name → (matchPattern name dir.pattern dir.patLen =
          some (decide (GlobMatches pattern (nameText name))) ↔
        (UsedMatches pattern (nameText name) ↔ GlobMatches pattern (nameText name)))) ∧
    ∀ l, vol.ChainOn d' dir.startCluster l → ∃ listed dir',
      listDir (some vol) ⟨d', dir⟩ = .ok listed ⟨d', dir'⟩ ∧
      (listed = (slotNames ((vol.dirSlots l).map (vol.imageOn d').slot)).filter
          (fun name => GlobMatches pattern (nameText name)) ↔
        ∀ name ∈ slotNames ((vol.dirSlots l).map (vol.imageOn d').slot),
          (UsedMatches pattern (nameText name) ↔ GlobMatches pattern (nameText name))) := by
  constructor
  · intro e name hname
    rw [show matchPattern name dir.pattern dir.patLen = _ from
      fFindfirst_selects hfirst hne hnul hname]
    simp only [Option.some.injEq, decide_eq_decide]
  · intro l hl
    obtain ⟨hcur, hidx, hopen⟩ := fFindfirst_first hfirst
    have hpos : 0 < vol.slotsPerCluster := by
      rw [slotsPerCluster, clusterSize_eq, DIR_SIZE]
      omega
    have hselect : ∀ name ∈ slotNames ((vol.dirSlots l).map (vol.imageOn d').slot),
        dir.select name = some (decide (UsedMatches pattern (nameText name))) := by
      intro name hmem
      obtain ⟨e, -, he⟩ := mem_filterMap.mp hmem
      exact fFindfirst_selects hfirst hne hnul he
    -- the names listed are those that the tokens tried match
    obtain ⟨dir', hrun⟩ := listDir_on hpos hslots (DirOn.first hl hopen hcur hidx) fun name hmem =>
      hselect name hmem ▸ Option.some_ne_none _
    refine ⟨_, dir', hrun, ?_⟩
    rw [Dir.selected, filter_eq_filter_iff]
    refine forall₂_congr fun name hmem => ?_
    rw [hselect name hmem]
    simp only [Option.some.injEq, decide_eq_true_eq, decide_eq_decide]

/-- `f_findfirst("/", "A*")` on the root with the files `ABC`, `BA` and `A`. -/
theorem findfirst_globs_iff_abc : ∃ dir',
    listDir (some tinyVol) ⟨abcDisk, rootDir ([0x41, 0x2A] ++ replicate 9 0) 2⟩ =
      .ok [[0x41, 0x42, 0x43] ++ replicate 10 0, 0x41 :: replicate 12 0] ⟨abcDisk, dir'⟩ := by
  obtain ⟨listed, dir', hrun, hlisted⟩ := (findfirst_globs_iff tinyVol abcDisk abcDisk [0x2F]
    [0x41, 0x2A] _ (by decide) (by decide) rfl (by decide) (by decide)).2 [2, 3] abc_chain
  rw [abc_names] at hlisted
  have hshort : ∀ name ∈ abcNames, (nameText name).length ≠ 12 := by decide
  refine ⟨dir', hrun.trans (congrArg (Outcome.ok · _) ?_)⟩
  refine (hlisted.mpr fun name hmem => ?_).trans (by decide +kernel)
  exact usedMatches_iff_of_short (by decide) fun hlen => absurd hlen (hshort name hmem)

/-- `ABCDEFGH.BIN`. -/
def fullName : Bytes := [0x41, 0x42, 0x43, 0x44, 0x45, 0x46, 0x47, 0x48, 0x2E, 0x42, 0x49, 0x4E]

/-- A root directory with the file `ABCDEFGH.BIN`. -/
def fullNameDisk : Disk :=
  diskOf (0x0FFFFFF8 :: replicate 2 0x0FFFFFFF) [fileSlot fullName 0 0]

theorem fullName_chain : tinyVol.ChainOn fullNameDisk 2 [2] := by decide +kernel

theorem fullName_names :
    slotNames ((tinyVol.dirSlots [2]).map (tinyVol.imageOn fullNameDisk).slot) =
    [fullName ++ [0]] := by decide +kernel

/-- The patterns `*` and `ABCDEFGH.BIN` match the name `ABCDEFGH.BIN`, and `f_readdir` does not
yield it: behind the star position 12 is not tried, and of the other pattern 11 bytes are kept. -/
theorem full_name_missed : GlobMatches [0x2A] fullName ∧ GlobMatches fullName fullName ∧
    slotNames ((tinyVol.dirSlots [2]).map (tinyVol.imageOn fullNameDisk).slot) =
      [fullName ++ [0]] ∧
    (∃ dir dir', fFindfirst (some tinyVol) [0x2F] [0x2A] fullNameDisk = .ok dir fullNameDisk ∧
      listDir (some tinyVol) ⟨fullNameDisk, dir⟩ = .ok [] ⟨fullNameDisk, dir'⟩) ∧
    ∃ dir dir', fFindfirst (some tinyVol) [0x2F] fullName fullNameDisk = .ok dir fullNameDisk ∧
      listDir (some tinyVol) ⟨fullNameDisk, dir⟩ = .ok [] ⟨fullNameDisk, dir'⟩ := by
  have hmissed (kept : Bytes) (n : Nat)
      (h : ∀ name ∈ [fullName ++ [0]], (rootDir kept n).select name = some false) : ∃ dir',
      listDir (some tinyVol) ⟨fullNameDisk, rootDir kept n⟩ = .ok [] ⟨fullNameDisk, dir'⟩ := by
    rw [← fullName_names] at h
    have hdir : DirOn tinyVol fullNameDisk 2 (rootDir kept n) (tinyVol.dirSlots [2]) :=
      .first fullName_chain rfl rfl rfl
    obtain ⟨dir', hrun⟩ := listDir_on (by decide) (by decide) hdir fun name hname => by
      simp [h name hname]
    refine ⟨dir', hrun.trans (congrArg (Outcome.ok · _) ?_)⟩
    exact filter_eq_nil_iff.mpr fun name hname => by simp [h name hname]
  obtain ⟨dir₁, hstar⟩ := hmissed (0x2A :: replicate 10 0) 1 (by decide)
  obtain ⟨dir₂, hname⟩ := hmissed (fullName.take 11) 11 (by decide)
  exact ⟨by decide, by decide, fullName_names, ⟨_, dir₁, rfl, hstar⟩, _, dir₂, rfl, hname⟩

/-- **`match_pattern` stays within the name** exactly when the pattern does not overrun it. The
handle is any that `f_findfirst` returns, for a pattern with any bytes; the function is total, and
reads the pattern below `pat_len` only. So no sequence of `f_readdir` calls panics exactly when the
pattern overruns no name of the directory. -/
theorem match_in_bounds_iff (vol : FatVolume) (d d' : Disk) (path pattern : Bytes) (dir : Dir)
    (hspc : 0 < vol.sectorsPerCluster) (hslots : vol.slotsPerCluster < 2 ^ 16)
    (hfirst : fFindfirst (some vol) path pattern d = .ok dir d') :
    (∀ e name, readDirEntryName e = some name →
      (matchPattern name dir.pattern dir.patLen ≠ none ↔ ¬ Overruns pattern (nameText name))) ∧
    ∀ l, vol.ChainOn d' dir.startCluster l →
      ((∀ n, ∃ names dir', readdirs (some vol) n ⟨d', dir⟩ = .ok names ⟨d', dir'⟩) ↔
        ∀ name ∈ slotNames ((vol.dirSlots l).map (vol.imageOn d').slot),
          ¬ Overruns pattern (nameText name)) := by
  have hverdict : ∀ e name, readDirEntryName e = some name →
      (dir.select name = none ↔ Overruns pattern (nameText name)) := by
    intro e name hname
    have hpadded := readDirEntryName_padded hname
    rw [hpadded.text_eq, ← matchPatternInner_overruns hpadded]
    rcases eq_or_ne pattern [] with rfl | hne
    · -- without a pattern nothing is read
      have hpattern := fFindfirst_pattern hfirst
      rw [Dir.select, matchPattern, hpattern]
      have hlast := readDirEntryName_last hname
      have hpresent : matchPatternInner name 0 [] ≠ none :=
        matchPatternInner_ne_none hlast not_mem_nil (Nat.zero_le 12)
      refine iff_of_false ?_ hpresent
      split
      · exact Option.some_ne_none _
      · exact hpresent
    · rw [fFindfirst_verdict hfirst hne]
  refine ⟨fun e name hname => not_congr (hverdict e name hname), fun l hl => ?_⟩
  obtain ⟨hcur, hidx, hopen⟩ := fFindfirst_first hfirst
  have hpos : 0 < vol.slotsPerCluster := by
    rw [slotsPerCluster, clusterSize_eq, DIR_SIZE]
    omega
  have hat := DirOn.first hl hopen hcur hidx
  constructor
  · intro hall name hmem hover
    obtain ⟨e, -, he⟩ := mem_filterMap.mp hmem
    obtain ⟨n, hfault⟩ := readdirs_panic hpos hslots hat hmem ((hverdict e name he).mpr hover)
    obtain ⟨names, dir', hrun⟩ := hall n
    rw [hrun] at hfault
    cases hfault
  · intro hbounds n
    obtain ⟨dir', hrun⟩ := readdirs_on hpos hslots hat (fun name hmem hnone => by
      obtain ⟨e, -, he⟩ := mem_filterMap.mp hmem
      exact hbounds name hmem ((hverdict e name he).mp hnone)) n
    exact ⟨_, dir', hrun⟩

/-- `f_findfirst("/", "*BIN\0")` on the root with the files `ABC`, `BA` and `A`: the names have ten
and more bytes of padding. -/
theorem match_in_bounds_iff_abc :
    fFindfirst (some tinyVol) [0x2F] [0x2A, 0x42, 0x49, 0x4E, 0] abcDisk =
      .ok (rootDir ([0x2A, 0x42, 0x49, 0x4E, 0] ++ replicate 6 0) 5) abcDisk ∧
    ∀ n, ∃ names dir', readdirs (some tinyVol) n
      ⟨abcDisk, rootDir ([0x2A, 0x42, 0x49, 0x4E, 0] ++ replicate 6 0) 5⟩ =
        .ok names ⟨abcDisk, dir'⟩ := by
  have hiff := (match_in_bounds_iff tinyVol abcDisk abcDisk [0x2F] [0x2A, 0x42, 0x49, 0x4E, 0] _
    (by decide) (by decide) rfl).2 [2, 3] abc_chain
  rw [abc_names] at hiff
  exact ⟨rfl, hiff.mpr (by decide)⟩

/-- The self-test's `f_findfirst("/", "*BIN\0")` in a root directory with the file `ABCDEFGH.BIN`:
the NUL byte of the pattern matches the only byte of padding, and then byte 13 of the name is read.
-/
theorem bin_pattern_panics :
    fFindfirst (some tinyVol) [0x2F] [0x2A, 0x42, 0x49, 0x4E, 0] fullNameDisk =
      .ok (rootDir ([0x2A, 0x42, 0x49, 0x4E, 0] ++ replicate 6 0) 5) fullNameDisk ∧
    slotNames ((tinyVol.dirSlots [2]).map (tinyVol.imageOn fullNameDisk).slot) =
      [fullName ++ [0]] ∧
    matchPattern (fullName ++ [0]) ([0x2A, 0x42, 0x49, 0x4E, 0] ++ replicate 6 0) 5 = none ∧
    (fReaddir (some tinyVol) : DirOp Disk _)
        ⟨fullNameDisk, rootDir ([0x2A, 0x42, 0x49, 0x4E, 0] ++ replicate 6 0) 5⟩ =
      .fault .panic := by
  exact ⟨rfl, fullName_names, by decide, by decide +kernel⟩

end PlanckOS.Fat32

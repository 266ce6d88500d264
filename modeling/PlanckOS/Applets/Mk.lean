import Mathlib.Data.List.DropRight
import PlanckOS.Applets.Terminal

/-!
# The applet `src/applets/mk`

`create_path` makes a directory when the path ends in a slash, and a file otherwise. With `-p` it
calls itself on the parent when that is missing (`parent_path`), and tries again. The parent comes
without a slash at its end.

The calls inside of each other are bounded like the loops (`createWithin`). A parent is shorter than
its path, so the length of the path is enough (`createPath_eq`). `f_close` does nothing and is left
out.
-/

set_option autoImplicit false

namespace PlanckOS.Applets.Mk

open Lib.Fallible Fat32 List

variable {path parent : Bytes} {vol : Option FatVolume} {e : FError}

/-! ## Paths -/

/-- `path.trim_end_matches('/')`. -/
def trimEnd (path : Bytes) : Bytes := path.rdropWhile (· == 0x2F)

/-- `path.rfind('/')`. -/
def rfindSlash (path : Bytes) : Option Nat :=
  match (path.rdropWhile (· != 0x2F)).length with
  | 0 => none
  | pos + 1 => some pos

def parentPath (path : Bytes) : Option Bytes :=
  match rfindSlash (trimEnd path) with
  | none => none
  | some 0 => some [0x2F]
  | some pos => some ((trimEnd path).take pos)

/-! ## The applet -/

section Model

variable {δ : Type} [BlockDevice δ]

/-- The text for an error. -/
def errorText : FError → String
  | .diskErr => "Disk error"
  | .exists => "File exists"
  | .noPath => "No such path"
  | .invalid => "Invalid name"
  | .mkfsAborted => "Out of clusters"
  | _ => "Unknown error"

def showErr (path : Bytes) (label : String) (e : FError) : TermOp δ Unit :=
  write [.text "mk: cannot create ", .text label, .text " '", .path path, .text "': ",
    .text (errorText e), .newline]

/-- Make the parent and try again, with the result ignored. -/
def retry {α : Type} (create : Bytes → TermOp δ Unit) (path : Bytes) (x : DevOp δ α) :
    TermOp δ Unit :=
  match parentPath path with
  | some parent => do
      create parent
      let _ ← attempt x
      pure ()
  | none => pure ()

section

variable (vol : Option FatVolume)

section

variable (create : Bytes → TermOp δ Unit) (path : Bytes) (parents : Bool)

/-- The branch for a path that ended in a slash. -/
def createDirectory : TermOp δ Unit := do
  match ← attempt (fStat vol path) with
  | .ok info =>
      if info.attributes &&& 0x10 ≠ 0 then pure () else showErr path "directory" .exists
  | .error _ =>
      match ← attempt (fMkdir vol path) with
      | .ok () => pure ()
      | .error e =>
          if e = .noPath ∧ parents = true then retry create path (fMkdir vol path)
          else showErr path "directory" e

/-- The branch for the other paths. -/
def createFile : TermOp δ Unit := do
  match ← attempt (fOpen vol path (FA_WRITE ||| FA_CREATE_NEW)) with
  | .ok _ => pure ()
  | .error e =>
      if e = .exists then pure ()
      else if e = .noPath ∧ parents = true then
        retry create path (fOpen vol path (FA_WRITE ||| FA_CREATE_NEW))
      else showErr path "file" e

/-- The body of `create_path`; `create` is the call on the parent. -/
def createStep : TermOp δ Unit :=
  if trimEnd path = [] then pure ()
  else if path.getLast? = some 0x2F then createDirectory vol create (trimEnd path) parents
  else createFile vol create (trimEnd path) parents

end

/-- `create_path`, with at most `n` calls inside of each other. -/
def createWithin : Nat → Bytes → Bool → TermOp δ Unit
  | 0, _, _ => fun _ => .fault .diverge
  | n + 1, path, parents =>
      createStep vol (fun parent => createWithin n parent true) path parents

def createPath (path : Bytes) (parents : Bool) : TermOp δ Unit :=
  createWithin vol (path.length + 1) path parents

/-- The letters of one argument. -/
def parseOption : List Char → Bool → Except String Bool
  | [], parents => .ok parents
  | 'p' :: cs, _ => parseOption cs true
  | _ :: _, _ => .error "invalid option"

/-- The loop of `parse_args`. -/
def parseLoop : List String → List String × Bool → Except String (List String × Bool)
  | [], r => .ok r
  | arg :: args, (paths, parents) =>
      match arg.toList with
      | '-' :: c :: cs =>
          match parseOption (c :: cs) parents with
          | .ok parents => parseLoop args (paths, parents)
          | .error e => .error e
      | _ => parseLoop args (paths ++ [arg], parents)

def parseArgs (args : List String) : Except String (List String × Bool) :=
  parseLoop args ([], false)

/-- The loop over the paths. -/
def createAll (parents : Bool) : List String → TermOp δ Unit
  | [] => pure ()
  | path :: paths => do
      createPath vol (textBytes path) parents
      createAll parents paths

def run (args : List String) : TermOp δ Unit :=
  match parseArgs args with
  | .error e => write [.text "mk: ", .text e, .newline]
  | .ok (paths, parents) =>
      if paths.isEmpty then write [.text "mk: missing operand", .newline]
      else createAll vol parents paths

end

end Model

/-! ## The calls inside of each other -/

theorem rfindSlash_lt {pos : Nat} (h : rfindSlash path = some pos) : pos < path.length := by
  rw [rfindSlash] at h
  split at h
  · cases h
  next n hlen =>
    obtain rfl := Option.some.inj h
    have hle := IsPrefix.length_le <| rdropWhile_prefix (· != (0x2F : UInt8)) path
    omega

theorem trimEnd_length_le (path : Bytes) : (trimEnd path).length ≤ path.length :=
  IsPrefix.length_le <| rdropWhile_prefix _ path

/-- A parent is shorter than the path. -/
theorem parentPath_length (h : parentPath path = some parent) :
    parent.length < (trimEnd path).length := by
  rw [parentPath] at h
  split at h
  · cases h
  next hpos =>
    obtain rfl := Option.some.inj h
    -- the last byte is no slash, so the first one is not the last
    have hne : trimEnd path ≠ [] := ne_nil_of_length_pos (rfindSlash_lt hpos)
    obtain ⟨b, rest, hcons⟩ := exists_cons_of_ne_nil hne
    have hlast : ((trimEnd path).getLast hne == 0x2F) = false :=
      Bool.eq_false_iff.mpr (rdropWhile_last_not _ _ hne)
    cases rest with
    | nil =>
      simp only [hcons, getLast_singleton] at hlast
      rw [rfindSlash, hcons] at hpos
      simp [rdropWhile_singleton, bne, hlast] at hpos
    | cons b' rest =>
      rw [hcons]
      simp
  next pos hzero hpos =>
    obtain rfl := Option.some.inj h
    have hlt := rfindSlash_lt hpos
    rw [length_take]
    omega

section Bound

variable {δ : Type} [BlockDevice δ]
  {create create' : Bytes → TermOp δ Unit}

omit [BlockDevice δ] in
theorem retry_congr {α : Type} {x : DevOp δ α}
    (h : ∀ parent, parent.length < (trimEnd path).length → create parent = create' parent) :
    retry create path x = retry create' path x := by
  rw [retry, retry]
  split
  next parent hparent => rw [h parent (parentPath_length hparent)]
  · rfl

/-- The body calls `create` on shorter paths only. -/
theorem createStep_congr (parents : Bool)
    (h : ∀ parent, parent.length < path.length → create parent = create' parent) :
    createStep vol create path parents = createStep vol create' path parents := by
  have hle : (trimEnd (trimEnd path)).length ≤ path.length :=
    (trimEnd_length_le _).trans (trimEnd_length_le path)
  have hshort : ∀ parent, parent.length < (trimEnd (trimEnd path)).length →
      create parent = create' parent := fun parent hlt => h parent (by omega)
  simp only [createStep, createDirectory, createFile, retry_congr hshort]

/-- More calls than the path has bytes make no difference. -/
theorem createWithin_eq {n m : Nat} (hn : path.length < n) (hm : path.length < m) (parents : Bool) :
    (createWithin vol n path parents : TermOp δ Unit) = createWithin vol m path parents := by
  induction n generalizing path m parents with
  | zero => omega
  | succ n ih =>
    obtain ⟨m, rfl⟩ : ∃ k, m = k + 1 := ⟨m - 1, by omega⟩
    rw [createWithin, createWithin]
    apply createStep_congr
    intro parent hlt
    exact ih (by omega) (by omega) true

/-- **`create_path` is its body with itself in it.** -/
theorem createPath_eq (vol : Option FatVolume) (path : Bytes) (parents : Bool) :
    (createPath vol path parents : TermOp δ Unit) =
      createStep vol (fun parent => createPath vol parent true) path parents := by
  rw [createPath, createWithin]
  apply createStep_congr
  intro parent hlt
  exact createWithin_eq hlt (Nat.lt_succ_self _) true

end Bound

/-! ## How the branches end -/

section Branches

variable {δ : Type} [BlockDevice δ] {create : Bytes → TermOp δ Unit}
  {t : Terminal δ} {d : δ} {parents : Bool}

theorem createDirectory_found {info : FileInfo} (hstat : fStat vol path t.dev = .ok info d)
    (hdir : info.attributes &&& 0x10 ≠ 0) :
    createDirectory vol create path parents t = .ok () { t with dev := d } := by
  rw [createDirectory, Op.bind_ok (attempt_ok hstat)]
  simp only [if_pos hdir]
  rfl

theorem createDirectory_made (hstat : fStat vol path t.dev = .err e t.dev)
    (hmkdir : fMkdir vol path t.dev = .ok () d) :
    createDirectory vol create path parents t = .ok () { t with dev := d } := by
  rw [createDirectory, Op.bind_ok (attempt_err hstat)]
  exact Op.bind_ok (attempt_ok hmkdir)

theorem createDirectory_retry (hstat : fStat vol path t.dev = .err e t.dev)
    (hmkdir : fMkdir vol path t.dev = .err .noPath t.dev) :
    createDirectory vol create path true t = retry create path (fMkdir vol path) t := by
  rw [createDirectory, Op.bind_ok (attempt_err hstat)]
  exact Op.bind_ok (attempt_err hmkdir)

theorem createFile_made {file : File}
    (hopen : fOpen vol path (FA_WRITE ||| FA_CREATE_NEW) t.dev = .ok file d) :
    createFile vol create path parents t = .ok () { t with dev := d } :=
  Op.bind_ok (attempt_ok hopen)

theorem createFile_exists
    (hopen : fOpen vol path (FA_WRITE ||| FA_CREATE_NEW) t.dev = .err .exists d) :
    createFile vol create path parents t = .ok () { t with dev := d } :=
  Op.bind_ok (attempt_err hopen)

theorem createFile_retry
    (hopen : fOpen vol path (FA_WRITE ||| FA_CREATE_NEW) t.dev = .err .noPath t.dev) :
    createFile vol create path true t =
      retry create path (fOpen vol path (FA_WRITE ||| FA_CREATE_NEW)) t :=
  Op.bind_ok (attempt_err hopen)

omit [BlockDevice δ] in
/-- What the second try leaves. -/
theorem retry_sat {α : Type} {x : DevOp δ α} {P Q : δ → Prop}
    (hparent : parentPath path = some parent)
    (hcreate : (create parent t).Sat (fun _ t' => P t'.dev) fun _ _ => True)
    (hx : ∀ d, P d → (x d).Leaves Q) :
    (retry create path x t).Sat (fun _ t' => Q t'.dev) fun _ _ => True := by
  rw [retry, hparent]
  apply sat_bind
  refine hcreate.mono ?_ fun _ _ h => h
  intro _ t' ht'
  apply sat_bind
  have hsat := hx t'.dev ht'
  rw [attempt]
  cases hrun : x t'.dev with
  | ok a d =>
    rw [hrun] at hsat
    exact hsat
  | err e d =>
    rw [hrun] at hsat
    exact hsat
  | fault w => trivial

end Branches

/-! ## The path of names -/

/-- The names with slashes between them. -/
def joinPath (names : List Bytes) : Bytes := [0x2F].intercalate names

/-- The path as it is typed, with or without a slash at its end. -/
def typedPath (names : List Bytes) (slash : Bool) : Bytes :=
  joinPath names ++ if slash then [0x2F] else []

/-- Names of a path: not empty and without a slash. -/
def TypedNames (names : List Bytes) : Prop := ∀ name ∈ names, name ≠ [] ∧ (0x2F : UInt8) ∉ name

section Names

variable {names : List Bytes} {name : Bytes}

theorem joinPath_concat (hne : names ≠ []) (name : Bytes) :
    joinPath (names ++ [name]) = joinPath names ++ 0x2F :: name := by
  induction names with
  | nil => exact absurd rfl hne
  | cons first rest ih =>
    cases rest with
    | nil =>
      simp only [joinPath, cons_append, nil_append, intercalate_cons_cons, intercalate_singleton]
      simp
    | cons second rest =>
      have hrest := ih (cons_ne_nil _ _)
      simp only [joinPath, cons_append, intercalate_cons_cons] at hrest ⊢
      simp only [hrest, append_assoc]

theorem TypedNames.of_subset {names' : List Bytes} (h : TypedNames names)
    (hsub : names' ⊆ names) : TypedNames names' := fun name hmem => h name (hsub hmem)

section

variable (h : TypedNames names) (hne : names ≠ [])
include h hne

/-- The path ends with its last name. -/
theorem joinPath_suffix : ∃ front b, joinPath names = front ++ [b] ∧ b ≠ 0x2F := by
  obtain ⟨parents, name, rfl⟩ := eq_nil_or_concat names |>.resolve_left hne
  obtain ⟨hname, hslash⟩ := h name (by simp)
  obtain ⟨bytes, b, rfl⟩ := eq_nil_or_concat name |>.resolve_left hname
  have hb : b ≠ 0x2F := by
    rintro rfl
    exact hslash (by simp)
  by_cases hparents : parents = []
  · subst hparents
    exact ⟨bytes, b, by simp [joinPath], hb⟩
  · exact ⟨joinPath parents ++ 0x2F :: bytes, b, by simp [joinPath_concat hparents], hb⟩

/-- The path of names has these components. -/
theorem pathComponents_joinPath : pathComponents (joinPath names) = names := by
  have hsplit : (joinPath names).splitOn 0x2F = names :=
    splitOn_intercalate _ (fun name hmem => (h name hmem).2) hne
  have htrim : (joinPath names).dropWhile (· == 0x2F) = joinPath names := by
    obtain ⟨name, rest, rfl⟩ := exists_cons_of_ne_nil hne
    obtain ⟨hname, hslash⟩ := h name mem_cons_self
    obtain ⟨b, bytes, rfl⟩ := exists_cons_of_ne_nil hname
    have hb : b ≠ 0x2F := fun hb => hslash (hb ▸ mem_cons_self)
    cases rest with
    | nil => simp [joinPath, hb]
    | cons _ _ => simp [joinPath, intercalate_cons_cons, hb]
  rw [pathComponents, htrim, hsplit]

theorem trimEnd_joinPath : trimEnd (joinPath names) = joinPath names := by
  obtain ⟨front, b, heq, hb⟩ := joinPath_suffix h hne
  rw [heq, trimEnd]
  exact rdropWhile_concat_neg _ _ _ (by simpa using hb)

theorem trimEnd_typedPath (slash : Bool) : trimEnd (typedPath names slash) = joinPath names := by
  rw [typedPath]
  cases slash with
  | false => rw [if_neg Bool.false_ne_true, append_nil, trimEnd_joinPath h hne]
  | true =>
    rw [if_pos rfl, trimEnd, rdropWhile_concat_pos _ _ _ rfl]
    exact trimEnd_joinPath h hne

theorem typedPath_getLast? (slash : Bool) :
    (typedPath names slash).getLast? = some 0x2F ↔ slash = true := by
  obtain ⟨front, b, heq, hb⟩ := joinPath_suffix h hne
  cases slash with
  | false => simp [typedPath, heq, hb]
  | true => simp [typedPath]

theorem joinPath_ne_nil : joinPath names ≠ [] := by
  obtain ⟨front, b, heq, -⟩ := joinPath_suffix h hne
  simp [heq]

end

/-- The parent of a path of names is the path of all but the last. -/
theorem parentPath_joinPath (h : TypedNames (names ++ [name])) (hne : names ≠ []) :
    parentPath (joinPath (names ++ [name])) = some (joinPath names) := by
  have hnames : TypedNames names := h.of_subset (subset_append_left _ _)
  have hslash := (h name (by simp)).2
  have hlen : 0 < (joinPath names).length := length_pos_iff.mpr (joinPath_ne_nil hnames hne)
  have hfind : rfindSlash (joinPath (names ++ [name])) = some (joinPath names).length := by
    have hdrop : (joinPath (names ++ [name])).rdropWhile (· != 0x2F) =
        joinPath names ++ [0x2F] := by
      rw [joinPath_concat hne, rdropWhile, reverse_append, reverse_cons,
        append_assoc, dropWhile_append_of_pos, singleton_append,
        dropWhile_cons_of_neg (by simp)]
      · simp
      · intro b hb
        have hmem : b ∈ name := mem_reverse.mp hb
        simpa using fun heq : b = 0x2F => hslash (heq ▸ hmem)
    rw [rfindSlash, hdrop, length_append, length_singleton]
  rw [parentPath, trimEnd_joinPath h (by simp), hfind]
  split
  next heq => cases heq
  next heq =>
    have := Option.some.inj heq
    omega
  next pos _ heq =>
    obtain rfl := Option.some.inj heq
    rw [joinPath_concat hne, take_left]

/-- What `create_path` does with the path that was typed. -/
theorem createPath_typedPath {δ : Type} [BlockDevice δ] (vol : Option FatVolume)
    (h : TypedNames names) (hne : names ≠ []) (slash : Bool) :
    (createPath vol (typedPath names slash) true : TermOp δ Unit) =
      if slash = true then
        createDirectory vol (fun parent => createPath vol parent true) (joinPath names) true
      else createFile vol (fun parent => createPath vol parent true) (joinPath names) true := by
  rw [createPath_eq, createStep, trimEnd_typedPath h hne, if_neg (joinPath_ne_nil h hne)]
  simp only [typedPath_getLast? h hne]

theorem createPath_joinPath {δ : Type} [BlockDevice δ] (vol : Option FatVolume)
    (h : TypedNames names) (hne : names ≠ []) :
    (createPath vol (joinPath names) true : TermOp δ Unit) =
      createFile vol (fun parent => createPath vol parent true) (joinPath names) true := by
  have htyped : (createPath vol (typedPath names false) true : TermOp δ Unit) = _ :=
    createPath_typedPath vol h hne false
  rwa [typedPath, if_neg Bool.false_ne_true, append_nil, if_neg Bool.false_ne_true] at htyped

end Names

end PlanckOS.Applets.Mk

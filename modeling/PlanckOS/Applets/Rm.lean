import PlanckOS.Applets.Terminal

/-!
# The applet `src/applets/rm`

`remove_path` removes a file, or with `recursive` a directory and what `f_opendir` of its path
lists. The recursion is bounded like the loops.

The buffer `path_buf` that the calls share is left out: every call fills in the part that it reads.
-/

set_option autoImplicit false

namespace PlanckOS.Applets.Rm

open Lib.Fallible Lib.Loop Fat32 List

def MAX_PATH : Nat := 256

variable {δ : Type} [BlockDevice δ]

/-- The path of an entry; `None` is one that does not fit. -/
def childPath (path name : Bytes) : Option Bytes :=
  let nlen := nameEnd name
  if nlen = 0 then none
  else if MAX_PATH ≤ path.length + 1 + nlen then none
  else
    let child := path ++ 0x2F :: name.take nlen
    some (if validUtf8 child then child else [0x3F])

/-- One round of the loop over the entries. -/
def removeStep (vol : Option FatVolume) (force : Bool) (path : Bytes)
    (remove : Bytes → TermOp δ Unit) (dir : Dir) : TermOp δ (Flow Dir Unit) := do
  match ← attemptReaddir vol dir with
  | (.ok (some name), dir) =>
      if isDotName name then pure (.next dir)
      else
        match childPath path name with
        | none => pure (.next dir)
        | some child => do
            remove child
            pure (.next dir)
  | (.ok none, _) => pure (.done ())
  | (.error _, _) => do
      if force then pure () else write [.text "rm: error reading directory", .newline]
      pure (.done ())

/-- `Delete the file or (now-empty) directory`. -/
def unlinkPath (vol : Option FatVolume) (force : Bool) (path : Bytes) : TermOp δ Unit := do
  match ← attempt (fUnlink vol path) with
  | .ok () => pure ()
  | .error .noFile =>
      if force then pure ()
      else write [.text "rm: cannot remove '", .path path,
        .text "': No such file or directory", .newline]
  | .error _ => write [.text "rm: cannot remove '", .path path, .text "'", .newline]

/-- `remove_path`, with at most `n` calls inside of each other. -/
def removePath (vol : Option FatVolume) (recursive force : Bool) : Nat → Bytes → TermOp δ Unit
  | 0, _ => fun _ => .fault .diverge
  | n + 1, path => do
      match ← attempt (fStat vol path) with
      | .error _ =>
          if force then pure ()
          else write [.text "rm: cannot remove '", .path path,
            .text "': No such file or directory", .newline]
      | .ok info =>
          if info.attributes &&& 0x10 ≠ 0 then
            if recursive then do
              match ← attempt (fOpendir vol path) with
              | .ok dir => do
                  Op.loopM (removeStep vol force path (removePath vol recursive force n))
                    LOOP_BOUND dir
                  unlinkPath vol force path
              | .error _ =>
                  if force then pure ()
                  else write [.text "rm: cannot open directory '", .path path, .text "'", .newline]
            else write [.text "rm: cannot remove '", .path path, .text "': Is a directory",
              .newline]
          else unlinkPath vol force path

end PlanckOS.Applets.Rm

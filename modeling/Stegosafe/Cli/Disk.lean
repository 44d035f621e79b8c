import Mathlib.Logic.Function.Basic
import Stegosafe.Crypto.Nonce

/-!
# Files, streams and errors

The disk is a map from paths to contents. A call that reads it may fail for reasons of
its own, which a flag stands for. So may one that writes, and it has then created or cut
its file already, or has written a part of it: what it leaves there is anything, but no
other file is touched. Printing to a stream that cannot be written is a panic.

Paths are compared as they are written. `withExtension` cuts a file name at its
last dot, unless that is its first character.
-/

namespace Stegosafe

open Checked Outcome

/-- `std::path::Path`. A path such as `..` or `/` has no file name. -/
structure Path where
  dir : String
  fileName : Option String
  deriving DecidableEq, Repr

namespace Path

/-- `rsplit_file_at_dot`: what comes before the last dot of a file name, and what comes after. -/
def rsplitFileAtDot (file : List Char) : Option (List Char) × Option (List Char) :=
  if file = ['.', '.'] then
    (some file, none)
  else
    let after := (file.reverse.takeWhile (· ≠ '.')).reverse
    match file.reverse.dropWhile (· ≠ '.') with
    | [] => (none, some after)
    -- the only dot is the first character
    | _ :: [] => (some file, none)
    | _ :: before => (some before.reverse, some after)

/-- The name without its extension. -/
def fileStem (p : Path) : Option String := do
  let name ← p.fileName
  let parts := rsplitFileAtDot name.toList
  (parts.1.or parts.2).map String.ofList

/-- The extension, if the name has one. -/
def extension (p : Path) : Option String := do
  let name ← p.fileName
  let parts := rsplitFileAtDot name.toList
  let _ ← parts.1
  parts.2.map String.ofList

/-- The path with another extension, or the path itself if it has no file name. -/
def withExtension (p : Path) (ext : String) : Path :=
  match p.fileStem with
  | none => p
  | some stem => { p with fileName := some (stem ++ "." ++ ext) }

/-- A file name that ends in an extension without dots splits before it, unless nothing is left. -/
theorem rsplitFileAtDot_append {stem ext : List Char} (hext : '.' ∉ ext) (hne : ext ≠ []) :
    rsplitFileAtDot (stem ++ '.' :: ext)
      = if stem = [] then (some (stem ++ '.' :: ext), none) else (some stem, some ext) := by
  have hrev : (stem ++ '.' :: ext).reverse = ext.reverse ++ '.' :: stem.reverse := by simp
  have hall : ∀ c ∈ ext.reverse, decide (c ≠ '.') = true := by
    intro c hc
    exact decide_eq_true fun heq => hext (heq ▸ List.mem_reverse.mp hc)
  -- read from the end, the first dot is the one before the extension
  have htake : (stem ++ '.' :: ext).reverse.takeWhile (· ≠ '.') = ext.reverse := by
    rw [hrev, List.takeWhile_append_of_pos hall, List.takeWhile_cons_of_neg (by simp),
      List.append_nil]
  have hdrop : (stem ++ '.' :: ext).reverse.dropWhile (· ≠ '.') = '.' :: stem.reverse := by
    rw [hrev, List.dropWhile_append_of_pos hall, List.dropWhile_cons_of_neg (by simp)]
  have hdots : stem ++ '.' :: ext ≠ ['.', '.'] := by
    intro heq
    have hlast := congrArg List.getLast? heq
    rw [List.getLast?_append_of_ne_nil _ (by simp), List.getLast?_cons_of_ne_nil hne] at hlast
    exact hext (List.mem_of_getLast? hlast)
  rw [rsplitFileAtDot, if_neg hdots, htake, hdrop, List.reverse_reverse]
  cases hstem : stem.reverse with
  | nil => simp [List.reverse_eq_nil_iff.mp hstem]
  | cons c rest =>
    have hstem' : stem ≠ [] := fun h => by simp [h] at hstem
    have hback : stem = (c :: rest).reverse := by rw [← hstem, List.reverse_reverse]
    rw [if_neg hstem']
    simp only [hback]

/-- **A path whose extension was replaced has that extension**, or none at all. -/
theorem extension_withExtension (p : Path) {ext : String} (hext : '.' ∉ ext.toList)
    (hne : ext ≠ "") :
    (p.withExtension ext).extension = some ext ∨ (p.withExtension ext).extension = none := by
  unfold withExtension
  cases hstem : p.fileStem with
  | none =>
    refine Or.inr ?_
    cases hname : p.fileName with
    | none => simp [extension, hname]
    | some name =>
      -- a file name always has a stem
      unfold fileStem rsplitFileAtDot at hstem
      simp only [hname, Option.bind_eq_bind, Option.bind_some] at hstem
      split at hstem
      · cases hstem
      · split at hstem <;> cases hstem
  | some stem =>
    have hlist : (stem ++ "." ++ ext).toList = stem.toList ++ '.' :: ext.toList := by simp
    have hne' : ext.toList ≠ [] := fun h => hne (String.toList_eq_nil_iff.mp h)
    simp only [extension, Option.bind_eq_bind, Option.bind_some, hlist,
      rsplitFileAtDot_append hext hne']
    split
    · exact Or.inr rfl
    · exact Or.inl (by simp)

end Path

/-- The errors the CLI reports, with the contexts `anyhow` wraps them in. -/
inductive CliError where
  | io
  | image
  | crypto (e : CryptoError)
  | metadata (reason : String)
  | invalidHex
  | missingSecret
  | invalidSecret
  | engine (e : StegoError)
  | json
  | message (text : String)
  | context (text : String) (source : CliError)
  deriving DecidableEq, Repr

/-- `.context(text)`. -/
def withContext {α : Type} (text : String) (x : Outcome CliError α) : Outcome CliError α :=
  mapErr (.context text) x

@[simp] theorem withContext_eq_ok {α : Type} {text : String} {x : Outcome CliError α} {a : α} :
    withContext text x = .ok a ↔ x = .ok a := mapErr_eq_ok

/-- The contents of every file there is. -/
abbrev Disk := Path → Option Bytes

/-- `fs::read`; `io` tells whether the system lets it. -/
def readFile (io : Bool) (disk : Disk) (path : Path) : Outcome CliError Bytes :=
  if io then okOr (disk path) .io else fail .io

/--
How the system carries out a write: whether it goes through, and, if not, what it
leaves in the place of the old contents.
-/
structure Write where
  succeeds : Bool
  leaves : Option Bytes → Option Bytes

/-- A write that goes through. -/
def Write.sound : Write := ⟨true, id⟩

/-- What a write that does not go through leaves on the disk. -/
def Write.broken (io : Write) (disk : Disk) (path : Path) : Disk :=
  Function.update disk path (io.leaves (disk path))

/-- A write that does not go through leaves its file as it was. -/
def Write.Atomic (io : Write) : Prop := ∀ contents, io.leaves contents = contents

/-- `fs::write`. -/
def writeFile (io : Write) (disk : Disk) (path : Path) (contents : Bytes) :
    Outcome CliError Unit × Disk :=
  if io.succeeds then (.ok (), Function.update disk path (some contents))
  else (fail .io, io.broken disk path)

/-- `println!` or `eprintln!`; `writable` tells whether its stream can be written. -/
def printLine (writable : Bool) : Outcome CliError Unit :=
  if writable then .ok () else abort .print

theorem readFile_eq_ok {io : Bool} {disk : Disk} {path : Path} {contents : Bytes} :
    readFile io disk path = .ok contents ↔ io = true ∧ disk path = some contents := by
  cases io <;> simp [readFile, fail]

theorem readFile_ne_panic {io : Bool} {disk : Disk} {path : Path} {p : Panic} :
    readFile io disk path ≠ .error (.panic p) := by
  cases io
  · intro h
    cases h
  · exact okOr_ne_panic

/-- A write that goes through puts its contents there. -/
theorem writeFile_succeeds {io : Write} (h : io.succeeds = true) (disk : Disk) (path : Path)
    (contents : Bytes) :
    writeFile io disk path contents = (.ok (), Function.update disk path (some contents)) :=
  if_pos h

theorem writeFile_fails {io : Write} (h : io.succeeds = false) (disk : Disk) (path : Path)
    (contents : Bytes) : writeFile io disk path contents = (fail .io, io.broken disk path) := by
  rw [writeFile, h]
  rfl

/-- **A write that does not go through touches its own file only.** -/
theorem Write.broken_of_ne {io : Write} {disk : Disk} {path other : Path} (h : other ≠ path) :
    io.broken disk path other = disk other := Function.update_of_ne h _ _

theorem Write.Atomic.broken_eq {io : Write} (h : io.Atomic) (disk : Disk) (path : Path) :
    io.broken disk path = disk := by
  rw [Write.broken, h]
  exact Function.update_eq_self _ _

/-- The panic of a message on a stream that cannot be written. -/
def Unprintable (writable : Bool) (p : Panic) : Prop := p = .print ∧ writable = false

theorem printLine_panics (writable : Bool) : PanicsOnly (Unprintable writable)
    (printLine writable) := by
  intro p hp
  cases writable with
  | true => cases hp
  | false =>
    cases hp
    exact ⟨rfl, rfl⟩

theorem printLine_eq_ok {writable : Bool} : printLine writable = .ok () ↔ writable = true := by
  cases writable <;> simp [printLine, abort]

end Stegosafe

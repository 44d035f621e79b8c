import Stegosafe.Cli.Main

/-!
# Which secret a command uses

A secret is given on the command line or in a file. A file may end its line or not: one
line ending is cut off, of one or two bytes, and no more. `GivesSecret` says so for both
ways, and `loadSecret` returns what they give (`loadSecret_eq_ok`).
-/

namespace Stegosafe.Proof

open Stegosafe Checked Outcome Text

/-- The contents of a file that gives a secret: with either line ending, or none. -/
def SecretFile (secret contents : Bytes) : Prop :=
  (contents = secret ∧ secret.getLast? ≠ some 10)
    ∨ (contents = secret ++ [10] ∧ secret.getLast? ≠ some 13)
    ∨ contents = secret ++ [13, 10]

/--
The arguments give this secret. One on the command line is warned of, and leaves the file
unread.
-/
def GivesSecret (io warns : Bool) (disk : Disk) (secretFile : Option Path)
    (deprecatedSecret : Option String) (secret : Bytes) : Prop :=
  (warns = true ∧ ∃ text, deprecatedSecret = some text ∧ text ≠ "" ∧ secret = utf8 text)
    ∨ (deprecatedSecret = none ∧ secret ≠ [] ∧ ∃ path, secretFile = some path ∧ io = true
        ∧ ∃ contents, disk path = some contents ∧ SecretFile secret contents)

/-- What is left when the last byte is taken off. -/
theorem eq_append_of_getLast? {bytes : Bytes} {b : UInt8} (h : bytes.getLast? = some b) :
    bytes = bytes.dropLast ++ [b] := by
  obtain ⟨front, rfl⟩ := List.getLast?_eq_some_iff.mp h
  rw [List.dropLast_concat]

/-- **Trimming takes off one line ending**, and nothing else. -/
theorem trim_eq_iff {contents secret : Bytes} :
    trimSingleTrailingNewline contents = secret ↔ SecretFile secret contents := by
  unfold trimSingleTrailingNewline SecretFile
  constructor
  · intro h
    split at h
    · rename_i hnewline
      have hcontents := eq_append_of_getLast? hnewline
      dsimp only at h
      split at h
      · -- `\r\n`
        rename_i hreturn
        have hfront := eq_append_of_getLast? hreturn
        rw [h] at hfront
        refine Or.inr (Or.inr ?_)
        rw [hcontents, hfront, List.append_assoc]
        rfl
      · rename_i hreturn
        rw [h] at hcontents hreturn
        exact Or.inr (Or.inl ⟨hcontents, hreturn⟩)
    · rename_i hnewline
      subst h
      exact Or.inl ⟨rfl, hnewline⟩
  · rintro (⟨rfl, hlast⟩ | ⟨rfl, hlast⟩ | rfl)
    · rw [if_neg hlast]
    · rw [if_pos List.getLast?_concat]
      dsimp only
      rw [List.dropLast_concat, if_neg hlast]
    · have hsplit : secret ++ [13, 10] = (secret ++ [13]) ++ [10] := by simp
      rw [hsplit, if_pos List.getLast?_concat]
      dsimp only
      rw [List.dropLast_concat, if_pos List.getLast?_concat, List.dropLast_concat]

section Load

variable {io warns : Bool} {disk : Disk} {path : Path} {secret : Bytes}

theorem loadSecret_file_eq_ok : loadSecret io warns disk (some path) none = .ok secret ↔
    secret ≠ [] ∧ io = true ∧ ∃ contents, disk path = some contents
      ∧ SecretFile secret contents := by
  rw [loadSecret, okOr, ok_bind]
  constructor
  · intro h
    obtain ⟨contents, hread, h⟩ := bind_eq_ok.mp h
    obtain ⟨hio, hdisk⟩ := readFile_eq_ok.mp hread
    dsimp only at h
    split at h
    · cases h
    · rename_i hsome
      cases h
      exact ⟨fun hnil => hsome (List.isEmpty_iff.mpr hnil), hio, contents, hdisk,
        trim_eq_iff.mp rfl⟩
  · rintro ⟨hne, hio, contents, hdisk, hfile⟩
    obtain rfl := trim_eq_iff.mpr hfile
    rw [readFile_eq_ok.mpr ⟨hio, hdisk⟩, ok_bind]
    exact if_neg fun hempty => hne (List.isEmpty_iff.mp hempty)

/-- **Which secret is loaded.** -/
theorem loadSecret_eq_ok {secretFile : Option Path} {deprecatedSecret : Option String} :
    loadSecret io warns disk secretFile deprecatedSecret = .ok secret ↔
      GivesSecret io warns disk secretFile deprecatedSecret secret := by
  unfold GivesSecret
  cases deprecatedSecret with
  | some text =>
    -- the argument decides, whether there is a file or not
    have hwarned : (∃ u, printLine warns = .ok u) ↔ warns = true :=
      ⟨fun ⟨_, hu⟩ => printLine_eq_ok.mp hu, fun h => ⟨(), printLine_eq_ok.mpr h⟩⟩
    simp only [loadSecret, bind_eq_ok, exists_and_right, hwarned]
    by_cases hempty : text = ""
    · simp [hempty, fail]
    · simp [hempty, eq_comm]
  | none =>
    cases secretFile with
    | none => simp [loadSecret, okOr, fail]
    | some path =>
      rw [loadSecret_file_eq_ok]
      simp

end Load

end Stegosafe.Proof

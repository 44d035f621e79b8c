import Mathlib.Data.Set.Function
import Mathlib.Data.List.Induction

/-!
# Entries kept in files

A store that keeps each of its entries in some files of a disk, where others write too.
The abstract store is a `Vault`, a map from names to the entries that can be had back.
Whatever is done to the disk is a `Deed` as far as the vault is concerned: some files were
written to, or an entry was stored. A write takes with it every entry that has one of the
files.

`Layout.Holds` says that the disk gives back what the vault promises. A deed keeps it
(`Holds.after`), so a run does (`Holds.run`), and what a run promises in the end is what it
stored last and then left alone (`run_eq_some`).
-/

namespace Holdings

variable {Name File Contents Entry : Type}

/-- Where entries are kept, and which disks give one back. -/
structure Layout (Name File Contents Entry : Type) where
  files : Name → Set File
  gives : (File → Contents) → Name → Entry → Prop
  files_nonempty : ∀ name, (files name).Nonempty
  /-- An entry's files decide. -/
  gives_congr : ∀ {disk disk' : File → Contents} {name : Name} {entry : Entry},
    Set.EqOn disk disk' (files name) → gives disk name entry → gives disk' name entry

/-- What can be had back. -/
abbrev Vault (Name Entry : Type) := Name → Option Entry

/-- The vault of an unknown disk: it promises nothing. -/
def Vault.empty : Vault Name Entry := fun _ => none

/-- What was done to a disk. -/
inductive Deed (Name File Entry : Type) where
  | wrote (written : Set File)
  | stored (name : Name) (entry : Entry)

namespace Layout

variable (L : Layout Name File Contents Entry)

/-- The files a deed may have changed. -/
def written : Deed Name File Entry → Set File
  | .wrote files => files
  | .stored name _ => L.files name

/-- The deed leaves the files of an entry alone. -/
def Spares (deed : Deed Name File Entry) (name : Name) : Prop :=
  ∀ file ∈ L.files name, file ∉ L.written deed

open Classical in
/-- The vault after a deed. -/
noncomputable def after (vault : Vault Name Entry) (deed : Deed Name File Entry) :
    Vault Name Entry := fun name =>
  if L.Spares deed name then vault name
  else
    match deed with
    | .wrote _ => none
    | .stored stored entry => if name = stored then some entry else none

/-- The vault after deeds one after another. -/
noncomputable def run (vault : Vault Name Entry) (deeds : List (Deed Name File Entry)) :
    Vault Name Entry := deeds.foldl L.after vault

/-- A deed that took one disk to another. -/
structure Did (disk : File → Contents) (deed : Deed Name File Entry)
    (disk' : File → Contents) : Prop where
  elsewhere : Set.EqOn disk disk' (L.written deed)ᶜ
  given : ∀ name entry, deed = .stored name entry → L.gives disk' name entry

/-- Deeds one after another. -/
inductive Runs : (File → Contents) → List (Deed Name File Entry) → (File → Contents) → Prop where
  | done (disk : File → Contents) : Runs disk [] disk
  | step {disk disk' disk'' : File → Contents} {deed : Deed Name File Entry}
      {deeds : List (Deed Name File Entry)} :
      L.Did disk deed disk' → Runs disk' deeds disk'' → Runs disk (deed :: deeds) disk''

/-- The disk gives back what the vault promises. -/
def Holds (vault : Vault Name Entry) (disk : File → Contents) : Prop :=
  ∀ name entry, vault name = some entry → L.gives disk name entry

variable {L} {vault : Vault Name Entry} {disk disk' : File → Contents}
  {deed : Deed Name File Entry} {deeds : List (Deed Name File Entry)} {name : Name}
  {entry : Entry}

/-- A deed does not spare what it stores. -/
theorem not_spares_stored : ¬ L.Spares (.stored name entry) name := by
  intro hspares
  obtain ⟨file, hfile⟩ := L.files_nonempty name
  exact hspares file hfile hfile

/-- **What is promised after a deed**: what it stored, and what it spared. -/
theorem after_eq_some : L.after vault deed name = some entry ↔
    deed = .stored name entry ∨ (L.Spares deed name ∧ vault name = some entry) := by
  unfold after
  constructor
  · intro h
    split at h
    · exact Or.inr ⟨‹_›, h⟩
    · cases deed with
      | wrote files => cases h
      | stored stored entry' =>
        dsimp only at h
        split at h
        · cases h
          subst name
          exact Or.inl rfl
        · cases h
  · rintro (rfl | ⟨hspares, hpromised⟩)
    · rw [if_neg not_spares_stored]
      exact if_pos rfl
    · rw [if_pos hspares, hpromised]

/-- What a deed spares reads the same after it. -/
theorem Did.gives (h : L.Did disk deed disk') (hspares : L.Spares deed name)
    (hgives : L.gives disk name entry) : L.gives disk' name entry :=
  L.gives_congr (fun file hfile => h.elsewhere (hspares file hfile)) hgives

/-- **A deed keeps the promises.** -/
theorem Holds.after (hholds : L.Holds vault disk) (h : L.Did disk deed disk') :
    L.Holds (L.after vault deed) disk' := by
  intro name entry hpromised
  rcases after_eq_some.mp hpromised with hstored | ⟨hspares, hbefore⟩
  · exact h.given name entry hstored
  · exact h.gives hspares (hholds name entry hbefore)

/-- **A run keeps them.** -/
theorem Holds.run (hholds : L.Holds vault disk) (h : L.Runs disk deeds disk') :
    L.Holds (L.run vault deeds) disk' := by
  induction h generalizing vault with
  | done disk => exact hholds
  | step hdid _ ih => exact ih (hholds.after hdid)

theorem holds_empty (L : Layout Name File Contents Entry) (disk : File → Contents) :
    L.Holds Vault.empty disk := by
  intro name entry hpromised
  cases hpromised

theorem run_append (vault : Vault Name Entry) (before later : List (Deed Name File Entry)) :
    L.run vault (before ++ later) = L.run (L.run vault before) later := List.foldl_append

/-- Deeds that spare an entry do not touch its promise. -/
theorem run_spared (hspares : ∀ deed ∈ deeds, L.Spares deed name) :
    L.run vault deeds name = vault name := by
  induction deeds generalizing vault with
  | nil => rfl
  | cons deed deeds ih =>
    have hfirst : L.after vault deed name = vault name := if_pos (hspares deed List.mem_cons_self)
    exact (ih fun later hlater => hspares later (List.mem_cons_of_mem _ hlater)).trans hfirst

/--
**What a run promises in the end**: an entry it stored, or one it began with, that every
later deed spared.
-/
theorem run_eq_some : L.run vault deeds name = some entry ↔
    (vault name = some entry ∧ ∀ deed ∈ deeds, L.Spares deed name)
      ∨ ∃ before later, deeds = before ++ .stored name entry :: later
          ∧ ∀ deed ∈ later, L.Spares deed name := by
  constructor
  · intro h
    induction deeds using List.reverseRecOn with
    | nil => exact Or.inl ⟨h, fun _ hmem => absurd hmem List.not_mem_nil⟩
    | append_singleton deeds last ih =>
      rw [run_append] at h
      rcases after_eq_some.mp h with rfl | ⟨hlast, hbefore⟩
      · exact Or.inr ⟨deeds, [], rfl, fun _ hmem => absurd hmem List.not_mem_nil⟩
      · -- the last deed spared the entry, so the ones before it say where it comes from
        have hall : ∀ {later : List (Deed Name File Entry)}, (∀ deed ∈ later, L.Spares deed name) →
            ∀ deed ∈ later ++ [last], L.Spares deed name := fun hlater =>
          List.forall_mem_append.mpr ⟨hlater, List.forall_mem_singleton.mpr hlast⟩
        rcases ih hbefore with ⟨hbegan, hspares⟩ | ⟨before, later, rfl, hspares⟩
        · exact Or.inl ⟨hbegan, hall hspares⟩
        · exact Or.inr ⟨before, later ++ [last], by simp, hall hspares⟩
  · rintro (⟨hbegan, hspares⟩ | ⟨before, later, rfl, hspares⟩)
    · rw [run_spared hspares, hbegan]
    · rw [run_append]
      exact (run_spared hspares).trans (after_eq_some.mpr (Or.inl rfl))

end Layout

end Holdings

import Stegosafe.Proof.Reference

/-!
# The two files of a run

A run of `embed` writes a stego image and, beside it, the metadata without which the
image is useless. Extraction reads these two files and the secret and nothing else
(`extractPlaintext_congr`), so what matters over a history is which later writes reach
a pair.

A later run writes to its own output and to its own metadata path. No output is a
metadata path, so another pair is reached only through an equal metadata path, which
outputs that differ in the extension alone do share. A later run to the same output
replaces the pair one file at a time. If a write that fails leaves its file as it was, a
run that fails before the first write leaves the pair alone, and one that fails between
the two breaks it.
-/

namespace Stegosafe.Proof

open Stegosafe Checked Outcome Text

section Pairs

variable {F : Type} [Scalar F] {crates : Crates}

theorem readFile_congr {io : Bool} {disk disk' : Disk} {path : Path} (h : disk path = disk' path) :
    readFile io disk path = readFile io disk' path := by
  rw [readFile, readFile, h]

/-- **Extraction depends on the pair and the secret only.** -/
theorem extractPlaintext_congr {env : ExtractEnv} {args : ExtractArgs} {disk disk' : Disk}
    (hstego : disk args.stego = disk' args.stego)
    (hmeta : disk (args.stego.withExtension "meta") = disk' (args.stego.withExtension "meta"))
    (hsecret : loadSecret env.readsSecret env.warns disk args.secretFile args.secret
      = loadSecret env.readsSecret env.warns disk' args.secretFile args.secret) :
    extractPlaintext F crates env args disk = extractPlaintext F crates env args disk' := by
  unfold extractPlaintext extractSetup extractSteps readMetadata openImage
  rw [readFile_congr hstego, readFile_congr hmeta, hsecret]

/-- A run of `embed` that succeeded, with the disk before and after it. -/
structure EmbedSuccess (F : Type) [Scalar F] (crates : Crates) where
  env : EmbedEnv
  args : EmbedArgs
  before : Disk
  after : Disk
  success : embed F crates env args before = (.ok (), after)

namespace EmbedSuccess

/-- Where a run writes the metadata. -/
def metaPath (r : EmbedSuccess F crates) : Path := r.args.output.withExtension "meta"

/-- The disk holds the two files of the run. -/
def HoldsPair (r : EmbedSuccess F crates) (disk : Disk) : Prop :=
  disk r.args.output = r.after r.args.output ∧ disk r.metaPath = r.after r.metaPath

/-- The two files are the run's own stego image and metadata. -/
theorem files (hsaves : SavesByExtension crates) (r : EmbedSuccess F crates) :
    ∃ stego metadata image text,
      embedPrepare F crates r.env r.args r.before = .ok (stego, metadata)
        ∧ crates.imageEncode r.args.output.extension stego = some image
        ∧ crates.toVecPretty metadata = some text
        ∧ r.after r.args.output = some image ∧ r.after r.metaPath = some text := by
  obtain ⟨stego, metadata, image, text, hprep, himage, htext, hafter⟩ := embed_eq_ok r.success
  refine ⟨stego, metadata, image, text, hprep, himage, htext, ?_, ?_⟩
  · rw [hafter, Function.update_of_ne (hsaves.output_ne_meta himage _), Function.update_self]
  · rw [hafter]
    exact Function.update_self ..

/-- A run touches no file but its pair. -/
theorem after_other (r : EmbedSuccess F crates) {path : Path} (houtput : path ≠ r.args.output)
    (hmeta : path ≠ r.metaPath) : r.after path = r.before path := by
  obtain ⟨stego, metadata, image, text, -, -, -, hafter⟩ := embed_eq_ok r.success
  rw [hafter]
  exact (Function.update_of_ne hmeta _ _).trans (Function.update_of_ne houtput _ _)

/-- No run saves its image where another writes metadata. -/
theorem output_ne_metaPath (hsaves : SavesByExtension crates) (r s : EmbedSuccess F crates) :
    r.args.output ≠ s.metaPath := by
  obtain ⟨stego, metadata, image, text, -, himage, -⟩ := embed_eq_ok r.success
  exact hsaves.output_ne_meta himage _

/-- **Extraction from a pair that is held** is extraction right after its run. -/
theorem HoldsPair.extract_eq {r : EmbedSuccess F crates} {disk : Disk} (h : r.HoldsPair disk)
    {env : ExtractEnv} {args : ExtractArgs} (hstego : args.stego = r.args.output)
    (hsecret : loadSecret env.readsSecret env.warns disk args.secretFile args.secret
      = loadSecret env.readsSecret env.warns r.after args.secretFile args.secret) :
    extractPlaintext F crates env args disk = extractPlaintext F crates env args r.after := by
  refine extractPlaintext_congr ?_ ?_ hsecret
  · rw [hstego]
    exact h.1
  · rw [hstego]
    exact h.2

end EmbedSuccess

/-! ## Histories -/

/-- A sequence of runs that all succeeded, each from the disk the one before it left. -/
inductive Embeds (F : Type) [Scalar F] (crates : Crates) :
    Disk → List (EmbedSuccess F crates) → Disk → Prop where
  | done (disk : Disk) : Embeds F crates disk [] disk
  | step (r : EmbedSuccess F crates) {rs : List (EmbedSuccess F crates)} {disk : Disk}
      (rest : Embeds F crates r.after rs disk) : Embeds F crates r.before (r :: rs) disk

/-- What no run of a sequence writes to, the sequence leaves alone. -/
theorem embeds_other {disk disk' : Disk} {rs : List (EmbedSuccess F crates)}
    (h : Embeds F crates disk rs disk') {path : Path}
    (hpath : ∀ r ∈ rs, path ≠ r.args.output ∧ path ≠ r.metaPath) : disk' path = disk path := by
  induction h with
  | done disk => rfl
  | step r rest ih =>
    obtain ⟨houtput, hmeta⟩ := hpath r List.mem_cons_self
    rw [ih fun s hs => hpath s (List.mem_cons_of_mem _ hs)]
    exact r.after_other houtput hmeta

/-- **A sequence whose metadata paths differ keeps every pair.** -/
theorem embeds_holdsPair (hsaves : SavesByExtension crates) {disk disk' : Disk}
    {rs : List (EmbedSuccess F crates)} (h : Embeds F crates disk rs disk')
    (hmeta : (rs.map EmbedSuccess.metaPath).Nodup) : ∀ r ∈ rs, r.HoldsPair disk' := by
  induction h with
  | done disk => exact fun r hr => absurd hr List.not_mem_nil
  | @step s rs disk rest ih =>
    rw [List.map_cons, List.nodup_cons] at hmeta
    intro r hr
    rcases List.mem_cons.mp hr with rfl | hr
    · -- the pair just written: no later run writes to it
      have hne : ∀ t ∈ rs, r.metaPath ≠ t.metaPath := fun t ht heq =>
        hmeta.1 (heq ▸ List.mem_map_of_mem ht)
      constructor
      · refine embeds_other rest fun t ht => ⟨fun heq => hne t ht ?_, r.output_ne_metaPath hsaves t⟩
        rw [EmbedSuccess.metaPath, EmbedSuccess.metaPath, heq]
      · exact embeds_other rest fun t ht => ⟨(t.output_ne_metaPath hsaves r).symm, hne t ht⟩
    · exact ih hmeta.2 r hr

/--
**Later runs keep earlier pairs**, if no two of them share a metadata path.

After any sequence of successful runs, each output holds the stego image and each
metadata path the metadata of its own run, and extraction from the pair returns what it
would have returned right after the run.
-/
theorem later_embeds_keep_pairs (crates : Crates) (hsaves : SavesByExtension crates)
    (disk disk' : Disk) (runs : List (EmbedSuccess F crates))
    (h : Embeds F crates disk runs disk') (hmeta : (runs.map EmbedSuccess.metaPath).Nodup)
    (r : EmbedSuccess F crates) (hr : r ∈ runs) :
    (∃ stego metadata image text,
      embedPrepare F crates r.env r.args r.before = .ok (stego, metadata)
        ∧ crates.imageEncode r.args.output.extension stego = some image
        ∧ crates.toVecPretty metadata = some text
        ∧ disk' r.args.output = some image
        ∧ disk' (r.args.output.withExtension "meta") = some text)
      ∧ ∀ (env : ExtractEnv) (args : ExtractArgs), args.stego = r.args.output →
          loadSecret env.readsSecret env.warns disk' args.secretFile args.secret
            = loadSecret env.readsSecret env.warns r.after args.secretFile args.secret →
          extractPlaintext F crates env args disk'
            = extractPlaintext F crates env args r.after := by
  have hpair := embeds_holdsPair hsaves h hmeta r hr
  obtain ⟨stego, metadata, image, text, hprep, himage, htext, hout, hmetaFile⟩ := r.files hsaves
  exact ⟨⟨stego, metadata, image, text, hprep, himage, htext, hpair.1.trans hout,
    hpair.2.trans hmetaFile⟩, fun env args hstego hsecret => hpair.extract_eq hstego hsecret⟩

/-- A run on the sample's inputs. -/
noncomputable def sampleSuccess (b c : UInt8)
    (hb : (Vector.replicate 12 b).toList.all (· == 0) = false) (output : Path)
    (hext : output.extension = some "png" ∨ output.extension = some "bmp") (disk : Disk)
    (hdisk : ∀ p, sampleDisk p ≠ none → disk p = sampleDisk p) :
    EmbedSuccess ℚ (referenceCrates sampleWord) where
  env := sampleEnv b c
  args := sampleArgs output
  before := disk
  after := sampleWritten b c output disk
  success := sample_embed hb hext hdisk

/-- The first of two runs. -/
noncomputable def sampleFirst : EmbedSuccess ℚ (referenceCrates sampleWord) :=
  sampleSuccess 1 3 (by decide) samplePng (Or.inl (by decide)) sampleDisk fun _ _ => rfl

/-- The first run leaves the sample's inputs alone. -/
theorem sampleFirst_inputs (p : Path) (h : sampleDisk p ≠ none) :
    sampleFirst.after p = sampleDisk p := by
  refine sampleFirst.after_other ?_ ?_
  · intro heq
    subst heq
    exact h rfl
  · intro heq
    subst heq
    exact h rfl

/-- The second run writes to `output`. -/
noncomputable def sampleSecond (output : Path)
    (hext : output.extension = some "png" ∨ output.extension = some "bmp") :
    EmbedSuccess ℚ (referenceCrates sampleWord) :=
  sampleSuccess 2 3 (by decide) output hext sampleFirst.after sampleFirst_inputs

theorem later_embeds_keep_pairs_sample :
    extractPlaintext ℚ (referenceCrates sampleWord) sampleExtractEnv
        (sampleExtractArgs samplePng ⟨"", some "out.bin"⟩)
        (sampleSecond ⟨"", some "other.png"⟩ (Or.inl (by decide))).after
      = extractPlaintext ℚ (referenceCrates sampleWord) sampleExtractEnv
          (sampleExtractArgs samplePng ⟨"", some "out.bin"⟩) sampleFirst.after :=
  (later_embeds_keep_pairs (referenceCrates sampleWord)
    (referenceCrates_lawful sampleWord).toSavesByExtension sampleDisk _ _
    (.step sampleFirst (.step (sampleSecond ⟨"", some "other.png"⟩ (Or.inl (by decide))) (.done _)))
    (by decide) sampleFirst List.mem_cons_self).2 _ _ rfl rfl

/-- Two outputs that differ in the extension alone, and one metadata file. -/
theorem later_embed_destroys_pair :
    let second := sampleSecond ⟨"", some "out.bmp"⟩ (Or.inr (by decide))
    Embeds ℚ (referenceCrates sampleWord) sampleDisk [sampleFirst, second] second.after
      ∧ ([sampleFirst, second].map fun r => r.args.output).Nodup
      ∧ ¬ sampleFirst.HoldsPair second.after := by
  intro second
  refine ⟨.step sampleFirst (.step second (.done _)), by decide, fun hpair => ?_⟩
  have hfirst : sampleFirst.after sampleFirst.metaPath = some (encodeRecord
      ((sampleTrace 1 3).metadata (referenceCrates sampleWord) "session-1")) :=
    sampleWritten_meta 1 3 samplePng sampleDisk
  have hsecond : second.after sampleFirst.metaPath = some (encodeRecord
      ((sampleTrace 2 3).metadata (referenceCrates sampleWord) "session-1")) :=
    sampleWritten_meta 2 3 ⟨"", some "out.bmp"⟩ sampleFirst.after
  -- the two records are at one path, and differ in the session nonce
  have heq := encodeRecord_injective (Option.some.inj
    ((hsecond.symm.trans hpair.2).trans hfirst))
  have hnonce := congrArg Metadata.sessionNonce heq
  exact absurd hnonce (by decide)

/-! ## Failed runs -/

/-- **What a run that returns an error changes**, if its writes are atomic: at most the image. -/
theorem embed_err_atomic {env : EmbedEnv} {args : EmbedArgs} {disk disk' : Disk} {e : CliError}
    (hatomic : env.savesStego.Atomic ∧ env.writesMetadata.Atomic)
    (h : embed F crates env args disk = (.error (.err e), disk')) :
    disk' = disk ∨ StopsBetween F crates env args disk
      ∧ ∃ image, disk' = Function.update disk args.output (some image) := by
  rcases embed_err_cases h with rfl | rfl | ⟨hstop, image, rfl | rfl⟩
  · exact Or.inl rfl
  · exact Or.inl (hatomic.1.broken_eq _ _)
  · exact Or.inr ⟨hstop, image, rfl⟩
  · exact Or.inr ⟨hstop, image, hatomic.2.broken_eq _ _⟩

/--
**A failed run to the output of an earlier pair keeps the pair**, unless it fails between
its two writes; and then it has replaced the image and nothing else.

The run returns an error, and its own writes leave their files as they were if they do not
go through.
-/
theorem failed_embed_keeps_pair (crates : Crates) (hsaves : SavesByExtension crates)
    (earlier : EmbedSuccess F crates) (env : EmbedEnv) (args : EmbedArgs) (disk disk' : Disk)
    (e : CliError) (hsame : args.output = earlier.args.output) (hpair : earlier.HoldsPair disk)
    (hatomic : env.savesStego.Atomic ∧ env.writesMetadata.Atomic)
    (hfail : embed F crates env args disk = (.error (.err e), disk')) :
    (¬ StopsBetween F crates env args disk →
        earlier.HoldsPair disk' ∧ ∀ (env' : ExtractEnv) (args' : ExtractArgs),
          args'.stego = args.output →
          loadSecret env'.readsSecret env'.warns disk' args'.secretFile args'.secret
            = loadSecret env'.readsSecret env'.warns earlier.after args'.secretFile args'.secret →
          extractPlaintext F crates env' args' disk'
            = extractPlaintext F crates env' args' earlier.after)
      ∧ (StopsBetween F crates env args disk → ∀ path, path ≠ args.output →
          disk' path = disk path)
      ∧ disk' (args.output.withExtension "meta")
          = earlier.after (earlier.args.output.withExtension "meta") := by
  have hmeta : args.output ≠ args.output.withExtension "meta" := by
    rw [hsame]
    exact earlier.output_ne_metaPath hsaves earlier
  rcases embed_err_atomic hatomic hfail with rfl | ⟨hstop, image, rfl⟩
  · -- nothing was written
    refine ⟨fun _ => ⟨hpair, fun env' args' hstego hsecret => ?_⟩, fun _ _ _ => rfl, ?_⟩
    · exact hpair.extract_eq (hstego.trans hsame) hsecret
    · rw [hsame]
      exact hpair.2
  · -- the image was, and the metadata file is another one
    refine ⟨fun hnot => absurd hstop hnot, fun _ path hne => Function.update_of_ne hne _ _, ?_⟩
    rw [Function.update_of_ne hmeta.symm, hsame]
    exact hpair.2

theorem failed_embed_keeps_pair_sample : sampleFirst.HoldsPair
    (embed ℚ (referenceCrates sampleWord)
      { sampleEnv 2 9 with entropy := .error .entropyUnavailable } (sampleArgs samplePng)
      sampleFirst.after).2 :=
  ((failed_embed_keeps_pair (referenceCrates sampleWord)
    (referenceCrates_lawful sampleWord).toSavesByExtension sampleFirst
    { sampleEnv 2 9 with entropy := .error .entropyUnavailable } (sampleArgs samplePng)
    sampleFirst.after sampleFirst.after _ rfl ⟨rfl, rfl⟩ ⟨fun _ => rfl, fun _ => rfl⟩ rfl).1
      fun ⟨_, _, _, hprep, _⟩ => nomatch hprep).1

/-- A metadata write that fails leaves another image beside the metadata. -/
theorem failed_embed_breaks_pair : sampleFirst.HoldsPair sampleFirst.after
    ∧ ∃ e disk', embed ℚ (referenceCrates sampleWord)
          { sampleEnv 2 9 with writesMetadata := ⟨false, id⟩ } (sampleArgs samplePng)
          sampleFirst.after = (.error (.err e), disk')
        ∧ ¬ sampleFirst.HoldsPair disk' := by
  have hvalid : (sampleTrace 2 9).Valid ℚ (referenceCrates sampleWord)
      { sampleEnv 2 9 with writesMetadata := ⟨false, id⟩ } (sampleArgs samplePng)
      sampleFirst.after :=
    sampleTrace_valid (by decide) rfl sampleFirst_inputs
  have hprep := embedPrepare_eq_ok.mpr ⟨sampleTrace 2 9, hvalid, rfl, rfl⟩
  refine ⟨⟨rfl, rfl⟩, .context "failed to write metadata file" .io,
    Function.update sampleFirst.after samplePng (some (encodeRaw (sampleStego 9))), ?_, ?_⟩
  · rw [embed, hprep]
    dsimp only [embedWrite, saveImage, sampleTrace]
    rw [show (sampleArgs samplePng).output = samplePng from rfl, sample_save (Or.inl (by decide))]
    have hkept : (Write.mk false id).Atomic := fun _ => rfl
    exact Prod.ext rfl (hkept.broken_eq _ _)
  · intro hpair
    have hold : sampleFirst.after samplePng = some (encodeRaw (sampleStego 3)) :=
      sampleWritten_output 1 3 samplePng (by decide) sampleDisk
    have hraw := Option.some.inj (((Function.update_self ..).symm.trans hpair.1).trans hold)
    have hstego := congrArg decodeRaw hraw
    rw [decodeRaw_encodeRaw, decodeRaw_encodeRaw, Option.some.injEq] at hstego
    exact absurd (sampleStego_injective hstego) (by decide)

end Pairs

end Stegosafe.Proof

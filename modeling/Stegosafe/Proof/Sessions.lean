import Stegosafe.Lib.Holdings
import Stegosafe.Proof.Live
import Stegosafe.Proof.Pairs
import Stegosafe.Proof.Pipeline

/-!
# Sessions

The program as a store. Between the commands there is only the disk, which the store shares
with whatever else the commands read and write: covers, payloads, extracted files.

The abstract store is a vault of entries, each under the path of its stego image and kept in
two files (`pairs`). `Does` says what a command did, told by how `main` returned and by the
metadata it left; that is what it did to the disk (`does_did`), whichever command it was
and however it ended: it may have failed on the way, a write of it may have left its file in
pieces, and it may have panicked over its message. So over a session of any commands the disk
gives back what the vault promises (`session_serves`).
-/

namespace Stegosafe.Proof

open Stegosafe Checked Outcome Holdings EntropyOracle Text

/-- A stored payload, and who may have it. -/
structure Entry where
  secret : Bytes
  context : String
  payload : Bytes

/-- The two files of an entry. -/
def pairFiles (stego : Path) : Set Path := {stego, stego.withExtension "meta"}

section Sessions

variable {F : Type} [Scalar F] {crates : Crates} {sha : Sha256}

/-- Extraction gives the entry back, from any disk with its two files. -/
def GivesBack (F : Type) [Scalar F] (crates : Crates) (disk : Disk) (stego : Path)
    (entry : Entry) : Prop :=
  ∀ (disk' : Disk) (env : ExtractEnv) (args : ExtractArgs) (base : Vector UInt8 8),
    Set.EqOn disk disk' (pairFiles stego) →
    args.stego = stego → args.context = entry.context →
    loadSecret env.readsSecret env.warns disk' args.secretFile args.secret = .ok entry.secret →
    env.entropy = .ok () ∧ env.nonceBase = .ok base →
    env.readsMetadata = true ∧ env.readsStego = true →
    extractPlaintext F crates env args disk' = .ok entry.payload

/-- How entries are kept on a disk. -/
def pairs (F : Type) [Scalar F] (crates : Crates) :
    Layout Path Path (Option Bytes) Entry where
  files := pairFiles
  gives := GivesBack F crates
  files_nonempty stego := ⟨stego, Set.mem_insert ..⟩
  gives_congr hsame hgives disk' env args base hpair :=
    hgives disk' env args base (hsame.trans hpair)

/--
What the metadata must say for the payload to be had back: a lossless image format, a
technique that finds its samples again, and a length that fits the frame.
-/
def Lasting (crates : Crates) (output : Path) (metadata : Metadata) : Prop :=
  LosslessFormat crates output.extension
    ∧ (metadata.embedding = "lsb-sequential-v1" ∨ metadata.embedding = "lsb-random-hmac-v1")
    ∧ metadata.encryptedLen.toNat < 2 ^ 32

/-- What a command did, told by how it ended. -/
inductive Does (F : Type) [Scalar F] (crates : Crates) (sha : Sha256) (disk : Disk) :
    Invocation → Deed Path Path Entry → Prop where
  /-- A payload was embedded that can be had back. -/
  | stored {m : EmbedMachine} {args : EmbedArgs} {disk' : Disk} {text secret payload : Bytes}
      {metadata : Metadata} :
      Live.main F crates sha (.embed m args) disk = (.ok (), disk') →
      disk' (args.output.withExtension "meta") = some text →
      crates.fromSlice text = some metadata → Lasting crates args.output metadata →
      loadSecret m.readsSecret m.warns disk args.secretFile args.secret = .ok secret →
      readFile m.readsPayload disk args.payload = .ok payload →
      Does F crates sha disk (.embed m args) (.stored args.output ⟨secret, args.context, payload⟩)
  /-- `embed` ended in any way. -/
  | embedded (m : EmbedMachine) (args : EmbedArgs) :
      Does F crates sha disk (.embed m args) (.wrote (pairFiles args.output))
  /-- `embed` failed and left the metadata file as it was. -/
  | stopped {m : EmbedMachine} {args : EmbedArgs} {disk' : Disk} {e : Fault CliError} :
      Live.main F crates sha (.embed m args) disk = (.error e, disk') →
      disk' (args.output.withExtension "meta") = disk (args.output.withExtension "meta") →
      Does F crates sha disk (.embed m args) (.wrote {args.output})
  /-- `extract` ended in any way. -/
  | extracted (m : ExtractMachine) (args : ExtractArgs) :
      Does F crates sha disk (.extract m args) (.wrote {args.output})
  /-- A command failed, and the disk is as it was. -/
  | refused {i : Invocation} {e : Fault CliError} :
      Live.main F crates sha i disk = (.error e, disk) →
      Does F crates sha disk i (.wrote ∅)

/-- The disk after commands one after another. -/
def afterAll (F : Type) [Scalar F] (crates : Crates) (sha : Sha256) (commands : List Invocation)
    (disk : Disk) : Disk :=
  commands.foldl (fun disk i => (Live.main F crates sha i disk).2) disk

/-- Commands one after another, and what each did. -/
inductive Session (F : Type) [Scalar F] (crates : Crates) (sha : Sha256) :
    Disk → List Invocation → List (Deed Path Path Entry) → Prop where
  | done (disk : Disk) : Session F crates sha disk [] []
  | step {disk : Disk} {i : Invocation} {deed : Deed Path Path Entry} {is : List Invocation}
      {deeds : List (Deed Path Path Entry)} :
      Does F crates sha disk i deed →
      Session F crates sha (Live.main F crates sha i disk).2 is deeds →
      Session F crates sha disk (i :: is) (deed :: deeds)

/-! ## One command -/

/-- **A run whose record lasts gives its payload back**, from any disk with its files. -/
theorem EmbedTrace.Valid.givesBack (hlaw : LawfulCrates crates) {env : EmbedEnv}
    {args : EmbedArgs} {disk disk' : Disk} {t : EmbedTrace} (ht : t.Valid F crates env args disk)
    (hlasting : Lasting crates args.output (t.metadata crates args.context)) {image text : Bytes}
    (himage : crates.imageEncode args.output.extension t.stego = some image)
    (htext : crates.toVecPretty (t.metadata crates args.context) = some text)
    (hstegoFile : disk' args.output = some image)
    (hmetaFile : disk' (args.output.withExtension "meta") = some text) :
    GivesBack F crates disk' args.output ⟨t.secret, args.context, t.payload⟩ := by
  obtain ⟨hformat, htechnique, hlen⟩ := hlasting
  have hlen' : t.encrypted.length < 2 ^ 32 := by
    rw [← ht.encryptedLen_eq]
    exact hlen
  intro disk'' env' args' base hpair hstego hcontext hsecret hentropy hio
  have hstego'' : disk'' args.output = some image := by
    rw [← hpair (Set.mem_insert ..), hstegoFile]
  have hmeta'' : disk'' (args.output.withExtension "meta") = some text := by
    rw [← hpair (Set.mem_insert_of_mem _ rfl), hmetaFile]
  obtain ⟨params, read, hsetup, hfound⟩ := ht.found hlaw hformat hlen' htechnique himage htext
    hstego hstego'' hmeta'' hsecret hentropy hio
  refine extractPlaintext_eq_ok.mpr ⟨_, _, _, _, t.encrypted, _, hsetup, hfound,
    Hex.decode_encode _, ?_, ?_⟩
  · rw [hcontext]
    exact HmacKey.verify_eq_ok.mpr rfl
  · rw [hcontext]
    exact ht.decrypts hlaw.toLawfulAead rfl

/-- **However it ends, `embed` touches its pair only.** -/
theorem embed_elsewhere (env : EmbedEnv) (args : EmbedArgs) (disk : Disk) :
    Set.EqOn disk (embed F crates env args disk).2 (pairFiles args.output)ᶜ := by
  intro path hpath
  have houtput : path ≠ args.output := by
    rintro rfl
    exact hpath (Set.mem_insert ..)
  have hmeta : path ≠ args.output.withExtension "meta" := by
    rintro rfl
    exact hpath (Set.mem_insert_of_mem _ rfl)
  rcases embed_cases F crates env args disk with
    ⟨e, hrun⟩ | ⟨e, hrun⟩ | ⟨-, e, disk', ⟨image, rfl | rfl⟩, hrun⟩
      | ⟨stego, metadata, image, text, -, -, -, hrun⟩
  · rw [hrun]
  · rw [hrun]
    exact (Write.broken_of_ne houtput).symm
  · rw [hrun]
    exact (Function.update_of_ne houtput _ _).symm
  · rw [hrun]
    exact ((Write.broken_of_ne hmeta).trans (Function.update_of_ne houtput _ _)).symm
  · rw [hrun]
    exact ((Function.update_of_ne hmeta _ _).trans (Function.update_of_ne houtput _ _)).symm

/-- And `extract` its output. -/
theorem extract_elsewhere (env : ExtractEnv) (args : ExtractArgs) (disk : Disk) :
    Set.EqOn disk (extract F crates env args disk).2 {args.output}ᶜ := by
  intro path hpath
  unfold extract
  cases extractPlaintext F crates env args disk with
  | error e => rfl
  | ok plaintext => exact (extractWrite_elsewhere _ plaintext disk hpath).symm

/-- What `embed` stored, it gives back. -/
theorem embed_gives (hlaw : LawfulCrates crates) {env : EmbedEnv} {args : EmbedArgs}
    {disk disk' : Disk} {text secret payload : Bytes} {metadata : Metadata}
    (hembed : embed F crates env args disk = (.ok (), disk'))
    (hwritten : disk' (args.output.withExtension "meta") = some text)
    (hrecord : crates.fromSlice text = some metadata)
    (hlasting : Lasting crates args.output metadata)
    (hsecret : loadSecret env.readsSecret env.warns disk args.secretFile args.secret = .ok secret)
    (hpayload : readFile env.readsPayload disk args.payload = .ok payload) :
    GivesBack F crates disk' args.output ⟨secret, args.context, payload⟩ := by
  obtain ⟨stego, metadata', image, text', hprep, himage, htext, hafter⟩ := embed_eq_ok hembed
  obtain ⟨t, ht, rfl, rfl⟩ := embedPrepare_eq_ok.mp hprep
  have hmetaFile : disk' (args.output.withExtension "meta") = some text' := by
    rw [hafter, Function.update_self]
  have hstegoFile : disk' args.output = some image := by
    rw [hafter, Function.update_of_ne (hlaw.output_ne_meta himage _), Function.update_self]
  -- the record that was read is the one that was written
  obtain rfl : text = text' := Option.some.inj (hwritten.symm.trans hmetaFile)
  obtain rfl : metadata = t.metadata crates args.context :=
    Option.some.inj (hrecord.symm.trans (hlaw.json_lossless htext))
  obtain rfl : secret = t.secret := Except.ok.inj (hsecret.symm.trans ht.secret_ok)
  obtain rfl : payload = t.payload := Except.ok.inj (hpayload.symm.trans ht.payload_ok)
  exact ht.givesBack hlaw hlasting himage htext hstegoFile hmetaFile

/-- **What a command is said to have done is what it did.** -/
theorem does_did (hlaw : LawfulCrates crates) {i : Invocation} {deed : Deed Path Path Entry}
    {disk : Disk} (h : Does F crates sha disk i deed) :
    (pairs F crates).Did disk deed (Live.main F crates sha i disk).2 := by
  cases h with
  | @stored m args disk' text secret payload metadata hrun hwritten hrecord hlasting hsecret
      hpayload =>
    have hembed := (embed_answers m args disk).symm.trans hrun
    rw [hrun]
    have helsewhere : Set.EqOn disk (embed F crates (embedEnv sha m) args disk).2
        (pairFiles args.output)ᶜ := embed_elsewhere _ args disk
    rw [hembed] at helsewhere
    refine ⟨helsewhere, fun stego entry heq => ?_⟩
    cases heq
    rw [← embedEnv_system sha m] at hsecret hpayload
    exact embed_gives hlaw hembed hwritten hrecord hlasting hsecret hpayload
  | embedded m args =>
    refine ⟨fun path hpath => ?_, fun _ _ heq => ?_⟩
    · rw [show Live.main F crates sha (.embed m args) disk = _ from embed_answers m args disk]
      exact embed_elsewhere _ args disk hpath
    · cases heq
  | @stopped m args disk' e hrun hkept =>
    have helsewhere : Set.EqOn disk (embed F crates (embedEnv sha m) args disk).2
        (pairFiles args.output)ᶜ := embed_elsewhere _ args disk
    rw [(embed_answers m args disk).symm.trans hrun] at helsewhere
    rw [hrun]
    refine ⟨fun path hpath => ?_, fun _ _ heq => ?_⟩
    · by_cases hmeta : path = args.output.withExtension "meta"
      · rw [hmeta]
        exact hkept.symm
      · refine helsewhere fun hpair => ?_
        rcases hpair with houtput | hmeta'
        · exact hpath houtput
        · exact hmeta hmeta'
    · cases heq
  | extracted m args =>
    refine ⟨fun path hpath => ?_, fun _ _ heq => ?_⟩
    · rw [show Live.main F crates sha (.extract m args) disk = _ from extract_answers m args disk]
      exact extract_elsewhere _ args disk hpath
    · cases heq
  | refused hrun =>
    rw [hrun]
    refine ⟨fun _ _ => rfl, fun _ _ heq => ?_⟩
    cases heq

/-- Every command does something. -/
theorem does_total (F : Type) [Scalar F] (crates : Crates) (sha : Sha256) (i : Invocation)
    (disk : Disk) : ∃ deed, Does F crates sha disk i deed := by
  cases i with
  | embed m args => exact ⟨_, .embedded m args⟩
  | extract m args => exact ⟨_, .extracted m args⟩

/-! ## Many commands -/

theorem session_total (F : Type) [Scalar F] (crates : Crates) (sha : Sha256)
    (commands : List Invocation) (disk : Disk) :
    ∃ deeds, Session F crates sha disk commands deeds := by
  induction commands generalizing disk with
  | nil => exact ⟨[], .done disk⟩
  | cons i is ih =>
    obtain ⟨deed, hdoes⟩ := does_total F crates sha i disk
    obtain ⟨deeds, hrest⟩ := ih (Live.main F crates sha i disk).2
    exact ⟨deed :: deeds, .step hdoes hrest⟩

/-- **A session is a run of the abstract store.** -/
theorem session_runs (hlaw : LawfulCrates crates) {disk : Disk} {commands : List Invocation}
    {deeds : List (Deed Path Path Entry)} (h : Session F crates sha disk commands deeds) :
    (pairs F crates).Runs disk deeds (afterAll F crates sha commands disk) := by
  induction h with
  | done disk => exact .done disk
  | step hdoes _ ih => exact .step (does_did hlaw hdoes) ih

/-- What is given back, `main` extracts. -/
theorem GivesBack.main_eq {disk : Disk} {stego : Path} {entry : Entry}
    (h : GivesBack F crates disk stego entry) {m : ExtractMachine} {args : ExtractArgs}
    (hstego : args.stego = stego) (hcontext : args.context = entry.context)
    (hsecret : loadSecret m.readsSecret m.warns disk args.secretFile args.secret = .ok entry.secret)
    {start : EntropyOracle} {base : Vector UInt8 8} (hinit : m.startup.init = .ok start)
    (hbase : ((fillArray sha 8 m.nonceBase).run start).1 = .ok base)
    (hio : m.readsMetadata = true ∧ m.readsStego = true
      ∧ m.writesPayload.succeeds = true ∧ m.prints = true) :
    Live.main F crates sha (.extract m args) disk
      = (.ok (), Function.update disk args.output (some entry.payload)) := by
  have hentropy : (extractEnv sha m).entropy = .ok ()
      ∧ (extractEnv sha m).nonceBase = .ok base := by
    rw [extractEnv, hinit]
    exact ⟨rfl, congrArg answerOf hbase⟩
  have hplain := h disk (extractEnv sha m) args base (fun _ _ => rfl) hstego hcontext hsecret
    hentropy ⟨hio.1, hio.2.1⟩
  exact (extract_answers m args disk).trans (extract_eq_ok.mpr ⟨_, hplain, hio.2.2, rfl⟩)

/--
**Over any session, what the vault promises can be had back.**

Commands run one after another, each of them `embed` or `extract` on any machine, each
ending in any way: in success, in an error, in a panic, with its writes done or broken off.
The vault promises the payloads of those `embed` commands whose two files no later command
wrote to; `extract`, with the secret and the context, writes each of them out.
-/
theorem session_serves (F : Type) [Scalar F] (crates : Crates) (hlaw : LawfulCrates crates)
    (sha : Sha256) (disk : Disk) (commands : List Invocation) :
    (∃ deeds, Session F crates sha disk commands deeds)
      ∧ ∀ deeds, Session F crates sha disk commands deeds → ∀ stego entry,
        (pairs F crates).run Vault.empty deeds stego = some entry →
        ∀ (m : ExtractMachine) (args : ExtractArgs) (start : EntropyOracle)
          (base : Vector UInt8 8), args.stego = stego → args.context = entry.context →
          loadSecret m.readsSecret m.warns (afterAll F crates sha commands disk) args.secretFile
            args.secret = .ok entry.secret →
          m.startup.init = .ok start → ((fillArray sha 8 m.nonceBase).run start).1 = .ok base →
          m.readsMetadata = true ∧ m.readsStego = true
            ∧ m.writesPayload.succeeds = true ∧ m.prints = true →
          Live.main F crates sha (.extract m args) (afterAll F crates sha commands disk)
            = (.ok (), Function.update (afterAll F crates sha commands disk) args.output
                (some entry.payload)) := by
  refine ⟨session_total F crates sha commands disk, ?_⟩
  intro deeds hsession stego entry hpromised m args start base hstego hcontext hsecret hinit hbase
    hio
  have hgives := ((pairs F crates).holds_empty disk).run (session_runs hlaw hsession) stego entry
    hpromised
  exact hgives.main_eq hstego hcontext hsecret hinit hbase hio

end Sessions

/-- Sources that answer nothing. -/
def deafStartup : Startup := ⟨none, false, flatSources 0⟩

/-- Embed, then try again without any entropy. -/
def sampleCommands : List Invocation :=
  [.embed sampleMachine (sampleArgs samplePng),
    .embed { sampleMachine with startup := deafStartup } (sampleArgs samplePng)]

theorem sample_session : Session ℚ (referenceCrates sampleWord) sampleSha sampleDisk sampleCommands
    [.stored samplePng ⟨utf8 "secret", "session-1", [0xA5]⟩, .wrote ∅] := by
  have hembed : Live.main ℚ (referenceCrates sampleWord) sampleSha
      (.embed sampleMachine (sampleArgs samplePng)) sampleDisk
        = (.ok (), sampleWritten 1 4 samplePng sampleDisk) := by
    refine (embed_answers sampleMachine (sampleArgs samplePng) sampleDisk).trans ?_
    rw [sample_answers.1]
    exact sample_embed (by decide) (Or.inl (by decide)) fun _ _ => rfl
  have hlasting : Lasting (referenceCrates sampleWord) samplePng
      ((sampleTrace 1 4).metadata (referenceCrates sampleWord) "session-1") := by
    refine ⟨referenceCrates_lossless _ _, Or.inl rfl, ?_⟩
    change (UInt64.ofNat (sampleEncrypted 4).length).toNat < 2 ^ 32
    rw [sampleEncrypted_length]
    decide
  refine .step (.stored hembed (sampleWritten_meta 1 4 samplePng sampleDisk)
    (decodeRecord_encodeRecord _) hlasting rfl rfl) (.step (.refused rfl) (.done _))

/-- The second command spares what the first stored. -/
theorem sample_promised : (pairs ℚ (referenceCrates sampleWord)).run Vault.empty
    [.stored samplePng ⟨utf8 "secret", "session-1", [0xA5]⟩, .wrote ∅] samplePng
      = some ⟨utf8 "secret", "session-1", [0xA5]⟩ := by
  refine Layout.run_eq_some.mpr (Or.inr ⟨[], [.wrote ∅], rfl, ?_⟩)
  exact List.forall_mem_singleton.mpr (fun _ _ => Set.notMem_empty _)

theorem session_serves_sample :
    Live.main ℚ (referenceCrates sampleWord) sampleSha
        (.extract sampleExtractMachine (sampleExtractArgs samplePng ⟨"", some "out.bin"⟩))
        (afterAll ℚ (referenceCrates sampleWord) sampleSha sampleCommands sampleDisk)
      = (.ok (), Function.update
          (afterAll ℚ (referenceCrates sampleWord) sampleSha sampleCommands sampleDisk)
          ⟨"", some "out.bin"⟩ (some [0xA5])) := by
  obtain ⟨-, hserves⟩ := session_serves ℚ (referenceCrates sampleWord)
    (referenceCrates_lawful sampleWord) sampleSha sampleDisk sampleCommands
  obtain ⟨start, hinit⟩ := init_flat 0
  have hstartup : flatStartup.init = .ok start := hinit
  have hbase := fillArray_flat (drawn_zero hstartup) (show 0 < 8 by decide) (by decide)
  exact hserves _ sample_session samplePng _ sample_promised sampleExtractMachine
    (sampleExtractArgs samplePng ⟨"", some "out.bin"⟩) start _ rfl rfl rfl hstartup hbase
    ⟨rfl, rfl, rfl, rfl⟩

end Stegosafe.Proof

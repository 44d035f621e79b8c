import Stegosafe.Cli.Main
import Stegosafe.Crypto.Draws

/-!
# The program on a machine

`main` and the two commands as they run: one oracle is initialised, and the command
draws from it whatever it needs, one draw after another. A machine is the system and what
its sources of entropy answer each draw.
-/

namespace Stegosafe

open Checked Outcome Stateful EntropyOracle

/-- What an `embed` command meets. -/
structure EmbedMachine extends EmbedSystem where
  startup : Startup
  sessionNonce : Draw
  salt : Draw
  nonceBase : Draw

/-- What an `extract` command meets. -/
structure ExtractMachine extends ExtractSystem where
  startup : Startup
  nonceBase : Draw

/-- `Commands`, each with the machine it runs on. -/
inductive Invocation where
  | embed (machine : EmbedMachine) (args : EmbedArgs)
  | extract (machine : ExtractMachine) (args : ExtractArgs)

namespace Live

section Commands

variable (F : Type) [Scalar F] (crates : Crates) (sha : Sha256)

/-- `embed` up to its first write, after the oracle is initialised. -/
def embedPrepare (machine : EmbedMachine) (args : EmbedArgs) (disk : Disk) :
    Drawing CliError (DynamicImage × Metadata) :=
  embedSteps F crates machine.toEmbedSystem args disk (fillArray sha 12 machine.sessionNonce)
    (fillArray sha argon2SaltLen machine.salt) (fillArray sha 8 machine.nonceBase)

/-- `embed`. -/
def embed (machine : EmbedMachine) (args : EmbedArgs) (disk : Disk) :
    Outcome CliError Unit × Disk :=
  match withContext "failed to initialize entropy oracle" (mapErr .crypto machine.startup.init) with
  | .error e => (.error e, disk)
  | .ok entropy =>
    match ((embedPrepare F crates sha machine args disk).run entropy).1 with
    | .error e => (.error e, disk)
    | .ok (stego, metadata) =>
      embedWrite crates machine.toEmbedSystem args.output stego metadata disk

/-- `extract` up to its write, after the oracle is initialised. -/
def extractPlaintext (machine : ExtractMachine) (args : ExtractArgs) (disk : Disk) :
    Drawing CliError Bytes := do
  let (metadata, keys, embedParams, stego) ←
    extractSteps crates machine.toExtractSystem args disk (fillArray sha 8 machine.nonceBase)
  lift (extractFound F crates args.context metadata keys embedParams stego)

/-- `extract`. -/
def extract (machine : ExtractMachine) (args : ExtractArgs) (disk : Disk) :
    Outcome CliError Unit × Disk :=
  match withContext "failed to initialize entropy oracle" (mapErr .crypto machine.startup.init) with
  | .error e => (.error e, disk)
  | .ok entropy =>
    match ((extractPlaintext F crates sha machine args disk).run entropy).1 with
    | .error e => (.error e, disk)
    | .ok plaintext => extractWrite machine.toExtractSystem args.output plaintext disk

/-- `main`. -/
def main : Invocation → Disk → Outcome CliError Unit × Disk
  | .embed machine args => embed F crates sha machine args
  | .extract machine args => extract F crates sha machine args

end Commands

end Live

end Stegosafe

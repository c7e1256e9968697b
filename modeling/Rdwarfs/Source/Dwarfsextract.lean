import Rdwarfs.Source.Fs.ExtractAll
import Rdwarfs.Source.Fs.Open
import Rdwarfs.Source.Fs.Tar
import Rdwarfs.Source.Opening

/-!
# The `dwarfsextract` command

bin/dwarfsextract.rs:27-111, 131-219, `run`: an image is opened, checked unless that is turned
off, and extracted to a directory or into an archive. Not modelled are the flags that are only
warned about, the size of the thread pool, the file or stream the archive goes to, and the line
that prints the counters.
-/
namespace Rdwarfs.Source.Dwarfsextract

open Lib.Machine Lib.Interleaving Lib.UnixPath Format Source.Fs Codecs

structure Cli where
  output : Path
  pattern : List Bytes
  imageOffset : String
  imageSize : Option Nat
  format : Option String
  continueOnError : Bool
  disableIntegrityCheck : Bool
  man : Bool
  deriving DecidableEq

/-- What is left to do once the filesystem is open. -/
inductive Job where
  | help
  | tar (fs : Filesystem)
  | extract (fs : Filesystem) (options : ExtractOptions)

/-- `run` up to where it writes; `check` is the `verify_all` of the build. -/
def job (libs : Libraries) (build : Build) (mmap : Bool) (check : Image → Result Unit) (cli : Cli)
    (file : Bytes) : Except Refusal Job := do
  if cli.man then return .help
  else
    let image ← Dwarfsck.openImage build mmap file cli.imageOffset cli.imageSize
    orRefuse (if cli.disableIntegrityCheck then .ok () else check image)
    let fs ← orRefuse (Filesystem.openImage libs build image)
    if cli.format.getD "filesystem" = "tar" then return .tar fs
    else
      return .extract fs
        { continueOnError := cli.continueOnError, hardlinkShared := true
          includePatterns := cli.pattern }

/-- How a run ends. -/
inductive Outcome where
  | refused (refusal : Refusal)
  | help
  | archived (archive : Result (List Member))
  | extracted (stats : Result ExtractStats)

/-- The runs of the command on a file; `outside` is the disk it extracts to. -/
inductive Ends {σ : Type} (outside : World Request Reply σ) (libs : Libraries) (build : Build)
    (mmap : Bool) (check : Image → Result Unit) (crate : TarCrate) (cli : Cli) (file : Bytes)
    (depth : Nat) : σ → Outcome → σ → Prop
  | refused {before : σ} {refusal : Refusal}
      (refuses : job libs build mmap check cli file = .error refusal) :
      Ends outside libs build mmap check crate cli file depth before (.refused refusal) before
  | help {before : σ} (asked : job libs build mmap check cli file = .ok .help) :
      Ends outside libs build mmap check crate cli file depth before .help before
  | tar {before : σ} {fs : Filesystem} {archive : Result (List Member)}
      (opened : job libs build mmap check cli file = .ok (.tar fs))
      (written : fs.writeTar libs crate depth = some archive) :
      Ends outside libs build mmap check crate cli file depth before (.archived archive) before
  | extract {before after : σ} {fs : Filesystem} {options : ExtractOptions}
      {walked : Result (List WalkEntry)} {writes : List (Result Nat)} {tally : Result Tally}
      (opened : job libs build mmap check cli file = .ok (.extract fs options))
      (walk : fs.walk depth = some walked)
      (extracts : Extracts outside fs cli.output options walked before writes tally after) :
      Ends outside libs build mmap check crate cli file depth before
        (.extracted (tally >>= Tally.conclude)) after

end Rdwarfs.Source.Dwarfsextract

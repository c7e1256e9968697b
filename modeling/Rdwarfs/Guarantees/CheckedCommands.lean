import Rdwarfs.Guarantees.ReopenedImages
import Rdwarfs.Guarantees.VerifiedImages
import Rdwarfs.Source.Dwarfsextract
import Rdwarfs.Source.DwarfsckReport

/-!
# The check in front of a command

`dwarfsck` and `dwarfsextract` hash every section before they do anything else. Whatever thread
comes first, a damaged image ends the run there, with nothing printed, exported or created; and a
sound one is treated as if there were no check.
-/
namespace Rdwarfs.Guarantees.CheckedCommands

open Lib.Machine Lib.TryForEach Lib.Interleaving Source Source.Format Source.Format.Image
open Source.Codecs Source.Fs SectionTiling VerifiedImages WindowedSources

section Opening

variable {build : Build} {mmap : Bool} {file : Bytes} {offset : String} {size : Option Nat}
  {image : Image}

theorem orRefuse_eq_ok {α : Type} {result : Result α} {value : α} :
    orRefuse result = .ok value ↔ result = .ok value := by
  cases result <;> simp [orRefuse, Except.mapError]

/-- What a command opens is the image of a stretch of its file. -/
theorem opened_stretch (fits : file.length < sliceLimit)
    (opened : Dwarfsck.openImage build mmap file offset size = .ok image) :
    ∃ source bytes, bytes <:+: file ∧ source.Serves bytes ∧ bytes.length < sliceLimit ∧
      Image.fromSource build source = .ok image := by
  unfold Dwarfsck.openImage at opened
  cases place : Dwarfsck.imageOffset offset with
  | error refusal =>
    rw [place] at opened
    cases opened
  | ok start =>
    rw [place] at opened
    change (if start = none ∧ size = none then orRefuse (Image.openPath build mmap file)
      else orRefuse (Image.fromWindow build (.ofFile file) (start.getD 0)
        (size.getD (file.length - start.getD 0)))) = .ok image at opened
    by_cases whole : start = none ∧ size = none
    · rw [if_pos whole, orRefuse_eq_ok] at opened
      cases mmap with
      | false => exact ⟨_, file, List.infix_refl _, ImageSource.serves_ofFile fits, fits, opened⟩
      | true => exact ⟨_, file, List.infix_refl _, ImageSource.serves_ofVec fits, fits, opened⟩
    · rw [if_neg whole, orRefuse_eq_ok, fromWindow_eq build .file fits] at opened
      split at opened
      · rename_i within
        have short := field_length within
        have small : (field file (start.getD 0) (size.getD (file.length - start.getD 0))).length <
            sliceLimit := by omega
        exact ⟨_, _, (List.take_prefix ..).isInfix.trans (List.drop_suffix ..).isInfix,
          ImageSource.serves_ofFile small, small, opened⟩
      · cases opened

end Opening

section Checks

variable {digests : Digests} {check : Bool → Image → Result Unit}

/-- A check by the one thread of a plain build or the pool of a parallel one. -/
def Checks (digests : Digests) (check : Bool → Image → Result Unit) : Prop :=
  ∀ deep image, VerifiesSections digests deep image (check deep image)

theorem checks_alone : Checks digests (verifySections digests) := fun _ _ => triesEach_forM

variable (checks : Checks digests check) {build : Build} {source : ImageSource} {bytes : Bytes}
  {image : Image} (serves : source.Serves bytes) (fits : bytes.length < sliceLimit)
  (opened : Image.fromSource build source = .ok image) (deep : Bool)

include checks serves fits opened

theorem check_intact (intact : ∀ record ∈ image.sections, Intact digests bytes record deep) :
    check deep image = .ok () := by
  obtain ⟨backed, chain⟩ := chain_of_opened serves fits opened
  have tried := checks deep image
  cases ended : check deep image with
  | ok done => rfl
  | error failure =>
    obtain ⟨record, member, failed⟩ := tried.failed failure ended
    have passed := (verifySection_ok_iff serves fits backed (chain_mem chain member).2).mpr
      (intact record member)
    rw [passed] at failed
    cases failed

theorem check_damaged (damaged : ¬ ∀ record ∈ image.sections, Intact digests bytes record deep) :
    ∃ record ∈ image.sections, ∃ failure, Damaged digests bytes record deep failure ∧
      check deep image = .error failure := by
  obtain ⟨backed, chain⟩ := chain_of_opened serves fits opened
  have tried := checks deep image
  cases ended : check deep image with
  | ok done =>
    refine absurd ?_ damaged
    intro record member
    have passed := tried.passed ended record member
    exact (verifySection_ok_iff serves fits backed (chain_mem chain member).2).mp passed
  | error failure =>
    obtain ⟨record, member, failed⟩ := tried.failed failure ended
    exact ⟨record, member, failure,
      (verifySection_error_iff serves fits backed (chain_mem chain member).2).mp failed, rfl⟩

end Checks

section Commands

variable {libs : Libraries} {hashes : Dwarfsck.Hashes} {build : Build} {mmap : Bool}
  {check : Bool → Image → Result Unit} {file : Bytes} {image : Image}

theorem run_checked {cli : Dwarfsck.Cli}
    (opened : Dwarfsck.openImage build mmap file cli.imageOffset cli.imageSize = .ok image)
    (asked : cli.printHeader = false) (on : cli.noCheck = false) (depth : Nat) :
    Dwarfsck.run libs hashes build mmap check cli file depth =
      match check cli.checkIntegrity image with
      | .error failure => some (.nothing, .unread failure)
      | .ok () => Dwarfsck.run libs hashes build mmap check { cli with noCheck := true } file depth := by
  unfold Dwarfsck.run
  simp only [opened, asked, on, Bool.false_eq_true, if_false, if_true]
  cases check cli.checkIntegrity image <;> rfl

theorem job_checked {cli : Dwarfsextract.Cli}
    (opened : Dwarfsck.openImage build mmap file cli.imageOffset cli.imageSize = .ok image)
    (asked : cli.man = false) (on : cli.disableIntegrityCheck = false) :
    Dwarfsextract.job libs build mmap (check false) cli file =
      match check false image with
      | .error failure => .error (.failed failure)
      | .ok () => Dwarfsextract.job libs build mmap (check false)
          { cli with disableIntegrityCheck := true } file := by
  unfold Dwarfsextract.job
  simp only [opened, asked, on, Bool.false_eq_true, if_false, if_true, bind, Except.bind]
  cases check false image <;> rfl

/-- A run depends on its check through the job alone. -/
theorem ends_of_job {σ : Type} {outside : World Request Reply σ} {crate : TarCrate}
    {cli cli' : Dwarfsextract.Cli} {depth : Nat} {before after : σ}
    {outcome : Dwarfsextract.Outcome} (output : cli'.output = cli.output)
    (same : Dwarfsextract.job libs build mmap (check false) cli' file =
      Dwarfsextract.job libs build mmap (check false) cli file)
    (ends : Dwarfsextract.Ends outside libs build mmap (check false) crate cli file depth
      before outcome after) :
    Dwarfsextract.Ends outside libs build mmap (check false) crate cli' file depth
      before outcome after := by
  cases ends with
  | refused refuses => exact .refused (same.trans refuses)
  | help done => exact .help (same.trans done)
  | tar ready written => exact .tar (same.trans ready) written
  | extract ready walk extracts => exact .extract (same.trans ready) walk (output ▸ extracts)

theorem ends_of_error {σ : Type} {outside : World Request Reply σ} {crate : TarCrate}
    {cli : Dwarfsextract.Cli} {depth : Nat} {before after : σ} {outcome : Dwarfsextract.Outcome}
    {refusal : Refusal}
    (refused : Dwarfsextract.job libs build mmap (check false) cli file = .error refusal)
    (ends : Dwarfsextract.Ends outside libs build mmap (check false) crate cli file depth
      before outcome after) : after = before ∧ outcome = .refused refusal := by
  cases ends with
  | refused refuses =>
    rw [refused] at refuses
    cases refuses
    exact ⟨rfl, rfl⟩
  | help done =>
    rw [refused] at done
    cases done
  | tar ready written =>
    rw [refused] at ready
    cases ready
  | extract ready walk extracts =>
    rw [refused] at ready
    cases ready

/-- A command that checks its image does nothing with a damaged one: `dwarfsck` prints and exports
nothing, `dwarfsextract` leaves the disk as it is and starts no archive, and both name the hash
that fails and a section that it fails for. With an intact image they do what they would without
the check, whatever that is. -/
theorem commands_gated {digests : Digests} (checks : Checks digests check)
    (fits : file.length < sliceLimit) {offset : String} {size : Option Nat}
    (opened : Dwarfsck.openImage build mmap file offset size = .ok image) :
    ∃ bytes, bytes <:+: file ∧ image.source.Serves bytes ∧
      (∀ cli : Dwarfsck.Cli, cli.imageOffset = offset → cli.imageSize = size →
        cli.printHeader = false → cli.noCheck = false → ∀ libs hashes depth,
        ((∀ record ∈ image.sections, Intact digests bytes record cli.checkIntegrity) →
          Dwarfsck.run libs hashes build mmap check cli file depth =
            Dwarfsck.run libs hashes build mmap check { cli with noCheck := true } file depth) ∧
        ((¬ ∀ record ∈ image.sections, Intact digests bytes record cli.checkIntegrity) →
          ∃ record ∈ image.sections, ∃ failure,
            Damaged digests bytes record cli.checkIntegrity failure ∧
            Dwarfsck.run libs hashes build mmap check cli file depth =
              some (.nothing, .unread failure))) ∧
      ∀ cli : Dwarfsextract.Cli, cli.imageOffset = offset → cli.imageSize = size →
        cli.man = false → cli.disableIntegrityCheck = false → ∀ libs,
        ((∀ record ∈ image.sections, Intact digests bytes record false) →
          ∀ (σ : Type) (outside : World Request Reply σ) crate depth before outcome after,
            Dwarfsextract.Ends outside libs build mmap (check false) crate cli file depth
                before outcome after ↔
              Dwarfsextract.Ends outside libs build mmap (check false) crate
                { cli with disableIntegrityCheck := true } file depth before outcome after) ∧
        ((¬ ∀ record ∈ image.sections, Intact digests bytes record false) →
          ∃ record ∈ image.sections, ∃ failure, Damaged digests bytes record false failure ∧
            ∀ (σ : Type) (outside : World Request Reply σ) crate depth before outcome after,
              Dwarfsextract.Ends outside libs build mmap (check false) crate cli file depth
                  before outcome after →
                after = before ∧ outcome = .refused (.failed failure)) := by
  obtain ⟨source, bytes, stretch, serves, short, built⟩ := opened_stretch fits opened
  obtain ⟨backed, -⟩ := chain_of_opened serves short built
  refine ⟨bytes, stretch, backed ▸ serves, ?_, ?_⟩
  · intro cli here sized asked on libs hashes depth
    subst here sized
    rw [run_checked opened asked on]
    constructor
    · intro intact
      rw [check_intact checks serves short built _ intact]
    · intro damaged
      obtain ⟨record, member, failure, wrong, refused⟩ :=
        check_damaged checks serves short built _ damaged
      exact ⟨record, member, failure, wrong, by rw [refused]⟩
  · intro cli here sized asked on libs
    subst here sized
    have gated := @job_checked libs build mmap check file image cli opened asked on
    constructor
    · intro intact σ outside crate depth before outcome after
      rw [check_intact checks serves short built _ intact] at gated
      exact ⟨ends_of_job rfl gated.symm, ends_of_job rfl gated⟩
    · intro damaged
      obtain ⟨record, member, failure, wrong, refused⟩ :=
        check_damaged checks serves short built _ damaged
      rw [refused] at gated
      exact ⟨record, member, failure, wrong, fun _ _ _ _ _ _ _ ends => ends_of_error gated ends⟩

end Commands

section Inputs

open IndexAbsence

def checkingCli : Dwarfsck.Cli where
  detail := "2"
  quiet := false
  verbose := false
  imageOffset := "auto"
  imageSize := none
  printHeader := false
  list := false
  checksum := none
  checkIntegrity := false
  noCheck := false
  json := false
  exportMetadata := none

def noHashes : Dwarfsck.Hashes := ⟨fun _ => [], fun _ => [], fun _ => 0, fun _ => 0⟩

/-- The block whose three bytes are not those of its header. -/
theorem commands_gated_block :
    Dwarfsck.run blockLibraries noHashes .checked true (verifySections blockHashes) checkingCli
      (blockImage [1, 2, 3]) 0 =
        some (.nothing, .unread (.err (.integrityMismatch 0 "xxh3"))) := by
  have opened : Dwarfsck.openImage .checked true (blockImage [1, 2, 3]) "auto" none =
      .ok blockOpened := congrArg orRefuse block_opened
  obtain ⟨bytes, -, serves, gated, -⟩ := commands_gated (@checks_alone blockHashes) (by decide) opened
  have same : bytes = blockImage [1, 2, 3] := by
    cases serves.contiguous with
    | inl none_ => cases none_
    | inr all => exact (Option.some.inj all).symm
  subst same
  obtain ⟨record, member, failure, wrong, ran⟩ :=
    (gated checkingCli rfl rfl rfl rfl blockLibraries noHashes 0).2
      fun intact => absurd (intact _ (List.mem_cons_self ..)).1 (by decide)
  cases List.mem_singleton.mp member
  rcases wrong with ⟨-, rfl⟩ | ⟨fast, -⟩
  · exact ran
  · exact absurd fast (by decide)

end Inputs

end Rdwarfs.Guarantees.CheckedCommands

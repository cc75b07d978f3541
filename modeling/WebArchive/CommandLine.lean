import WebArchive.Scan.Basic

/-!
The command line: one file, its format, and options. Arguments are taken from left to right, and
the first one that cannot be used ends the reading; what is missing shows at the end. Main fact:
`exitCode_eq_zero_iff`, success is reported exactly when a scan came to its end without a fault.
-/
namespace WebArchive

structure Request where
  path : Text
  format : Format
  digest : Option Digest.Algorithm := some .sha1
  maxHeaderLine : Nat := 8192
  quiet : Bool := false
  deriving DecidableEq

inductive Command where
  | check (request : Request)
  | help
  | version
  /-- there are arguments that cannot be used, or some are missing -/
  | unusable (problem : String)
  deriving DecidableEq

namespace CommandLine

inductive Setting where
  | format
  | digest
  | maxHeaderLine
  deriving DecidableEq

inductive Switch where
  | quiet
  | help
  | version
  deriving DecidableEq

structure Given where
  path : Option Text := none
  format : Option Format := none
  digest : Option (Option Digest.Algorithm) := none
  maxHeaderLine : Option Nat := none
  quiet : Bool := false

/-- Digest algorithms as the command line spells them; `none` leaves digests out. -/
def digestChoice? (t : Text) : Option (Option Digest.Algorithm) :=
  if t = "sha1".toList then some (some .sha1)
  else if t = "sha256".toList then some (some .sha256)
  else if t = "none".toList then some none
  else none

def formatChoice? (t : Text) : Option Format := Format.all.find? fun f => f.label.toList = t

def once {α β : Type} (before : Option α) (value : Option β) : Except Command β :=
  match before, value with
  | some _, _ => .error (.unusable "an option cannot be used multiple times")
  | none, none => .error (.unusable "invalid value for an option")
  | none, some value => .ok value

namespace Given

def setting (g : Given) (s : Setting) (value : Text) : Except Command Given :=
  match s with
  | .format => (once g.format (formatChoice? value)).map fun f => { g with format := some f }
  | .digest => (once g.digest (digestChoice? value)).map fun d => { g with digest := some d }
  | .maxHeaderLine =>
    (once g.maxHeaderLine (Text.long? value)).map fun n => { g with maxHeaderLine := some n }

def switch (g : Given) : Switch → Except Command Given
  | .help => .error .help
  | .version => .error .version
  | .quiet =>
    (once (if g.quiet then some () else none) (some true)).map fun quiet => { g with quiet }

/-- The one file; an empty name is none. -/
def file (g : Given) (path : Text) : Except Command Given :=
  if g.path.isSome then .error (.unusable "unexpected argument")
  else if path = [] then .error (.unusable "a value is required for the path")
  else .ok { g with path := some path }

def command (g : Given) : Command :=
  match g.path, g.format with
  | some path, some format =>
    .check
      { path
        format
        digest := g.digest.getD (some .sha1)
        maxHeaderLine := g.maxHeaderLine.getD 8192
        quiet := g.quiet }
  | _, _ => .unusable "required arguments were not provided"

end Given

def longSwitch? (name : Text) : Option Switch :=
  if name = "quiet".toList then some .quiet
  else if name = "help".toList then some .help
  else if name = "version".toList then some .version
  else none

def longSetting? (name : Text) : Option Setting :=
  if name = "format".toList then some .format
  else if name = "digest".toList then some .digest
  else if name = "max-header-line".toList then some .maxHeaderLine
  else none

def shortSwitch? (c : Char) : Option Switch :=
  if c = 'q' then some .quiet else if c = 'h' then some .help
  else if c = 'V' then some .version else none

def shortSetting? (c : Char) : Option Setting :=
  if c = 'f' then some .format else if c = 'd' then some .digest else none

/-- The state behind an argument, and the setting whose value is the next argument. -/
abbrev Taken := Except Command (Given × Option Setting)

/-- An option spelled out, with its value behind an equals sign or in the next argument. -/
def long (g : Given) (t : Text) : Taken :=
  let (name, value) :=
    match Text.cut '=' t with
    | some (name, value) => (name, some value)
    | none => (t, none)
  match longSetting? name, longSwitch? name, value with
  | some s, _, some value => (g.setting s value).map (·, none)
  | some s, _, none => .ok (g, some s)
  | none, some s, none => (g.switch s).map (·, none)
  | none, some _, some _ => .error (.unusable "unexpected value for an option")
  | none, none, _ => .error (.unusable "unexpected argument")

/-- Letters in one argument; the first one that has a value takes the rest of them for it, less an
equals sign in front. -/
def short (g : Given) : List Char → Taken
  | [] => .ok (g, none)
  | c :: rest =>
    match shortSetting? c, shortSwitch? c with
    | some s, _ =>
      match rest with
      | [] => .ok (g, some s)
      | '=' :: value => (g.setting s value).map (·, none)
      | value => (g.setting s value).map (·, none)
    | none, some s => (g.switch s).bind fun g => short g rest
    | none, none => .error (.unusable "unexpected argument")

def argument (g : Given) : Text → Taken
  | '-' :: '-' :: name => long g name
  | '-' :: c :: rest => short g (c :: rest)
  | path => (g.file path).map (·, none)

/-- Takes the arguments; behind two hyphens all of them are files. A value in an argument of its
own does not begin with a hyphen. -/
def take (g : Given) : List Text → Except Command Given
  | [] => .ok g
  | ['-', '-'] :: rest => rest.foldlM Given.file g
  | arg :: rest =>
    match argument g arg with
    | .error c => .error c
    | .ok (g, none) => take g rest
    | .ok (g, some s) =>
      match rest with
      | [] | ('-' :: _) :: _ => .error (.unusable "a value is required for an option")
      | value :: rest =>
        match g.setting s value with
        | .error c => .error c
        | .ok g => take g rest

def parse (args : List Text) : Command :=
  match take {} args with
  | .error c => c
  | .ok g => g.command

end CommandLine

/-- What a command leaves behind: its exit code, the lines it prints, and what it complains of. -/
structure Ending where
  exitCode : Nat
  lines : List Text := []
  complaint : Option String := none
  deriving DecidableEq

namespace Request

def options (r : Request) : ReaderOptions :=
  { blockDigest := r.digest, payloadDigest := r.digest, maxHeaderLine := r.maxHeaderLine }

def log (r : Request) (file : Except StreamError Source) : List LogEntry :=
  .checking r.path r.format ::
    match file with
    | .error e => [.failed (.stream e)]
    | .ok source =>
      match Scan.run r.format r.options r.quiet source with
      | (.error e, p) => p.log ++ [.failed e]
      | (.ok (), p) => p.log ++ [.complete p.report]

/-- A log that ends with a report tells whether all is well; any other one ends with an error. -/
def exitCode (log : List LogEntry) : Nat :=
  match log.getLast? with
  | some (.complete report) => if report.isClean then 0 else 2
  | _ => 1

theorem exitCode_eq_zero_iff (log : List LogEntry) :
    exitCode log = 0 ↔ ∃ report, log.getLast? = some (.complete report) ∧ report.isClean := by
  unfold exitCode
  split
  · rename_i report last
    by_cases clean : report.isClean <;> simp [last, clean]
  · rename_i other
    constructor
    · simp
    · rintro ⟨report, last, _⟩
      exact absurd last (other report)

def ending (r : Request) (file : Except StreamError Source) : Ending :=
  let log := r.log file
  { exitCode := exitCode log, lines := log.map LogEntry.text }

end Request

namespace Command

def programVersion : String := "harvest-check 0.1.0"

def usage : List String :=
  ["Usage: harvest-check [OPTIONS] --format <FORMAT> <PATH>",
   "",
   "  <PATH>                       path to the archive file",
   "  -f, --format <FORMAT>        arc, arc-gz, warc, warc-gz or gzip",
   "  -d, --digest <DIGEST>        sha1, sha256 or none",
   "      --max-header-line <MAX>  longest header line that is kept whole",
   "  -q, --quiet                  only log the summary",
   "  -h, --help                   print help",
   "  -V, --version                print version"]

def ending (c : Command) (file : Text → Except StreamError Source) : Ending :=
  match c with
  | .check request => request.ending (file request.path)
  | .help => { exitCode := 0, lines := usage.map String.toList }
  | .version => { exitCode := 0, lines := [programVersion.toList] }
  | .unusable problem => { exitCode := 2, complaint := some problem }

end Command
end WebArchive

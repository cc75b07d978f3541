import WebArchive.Archive.Packed
import WebArchive.Archive.Plain
import WebArchive.Scan.Log

/-!
Scanning a file: every record and member is read to its end, and those that are not valid are
counted and logged. A scan ends with the file or with the first error.
-/
namespace WebArchive

structure Progress where
  report : Report := {}
  log : List LogEntry := []

namespace Progress

def note (p : Progress) (notices : List Gzip.Notice) : Progress :=
  { p with log := p.log ++ notices.map .noticed }

variable {σ : Type}

def record (p : Progress) (quiet : Bool) (r : Record σ) : Progress :=
  let report := { p.report with records := p.report.records + 1 }
  if r.isValid then { p with report }
  else
    { report := { report with invalidRecords := report.invalidRecords + 1 }
      log := p.log ++
        if quiet then []
        else [.invalidRecord report.records r.kind r.startOffset r.isCompliant r.diagnostics] }

def member (quiet : Bool) (p : Progress) (m : Gzip.Member) : Progress :=
  let report := { p.report with members := p.report.members + 1 }
  if m.isValid then { p with report }
  else
    { report := { report with invalidMembers := report.invalidMembers + 1 }
      log := p.log ++ if quiet then [] else [.invalidMember m] }

def members (p : Progress) (quiet : Bool) (ms : List Gzip.Member) : Progress :=
  ms.foldl (member quiet) p

end Progress

namespace Scan

section Records
variable {ρ σ : Type} [Readable σ] [Archive ρ σ]

/-- Goes through the records of an archive and closes every one of them. -/
def records (quiet : Bool) (asError : ArchiveError → ScanError) (a : ρ) (p : Progress) :
    Outcome ScanError Progress Unit :=
  match _next : Archive.next a with
  | (.error e, a') => (.error (asError e), p.note (Archive.takeNotices a').1)
  | (.ok none, a') =>
    (.ok (), (p.note (Archive.takeNotices a').1).members quiet (Archive.takeCompleted a').1)
  | (.ok (some record), a') =>
    match _closed : record.close with
    | (answer, record') =>
      let behind := Archive.takeNotices (Archive.resume a' record'.stream)
      let p := p.note behind.1
      match answer with
      | .error e => (.error (.stream e), p)
      | .ok () =>
        let rest := Archive.takeCompleted behind.2
        records quiet asError rest.2 ((p.record quiet record').members quiet rest.1)
termination_by Archive.weight a
decreasing_by
  have first := Archive.weight_next _next
  have second := Record.weight_close_le record
  have third := Archive.weight_resume_le (a := a') (s := record'.stream)
  have fourth := Archive.weight_takeNotices (a := Archive.resume a' record'.stream)
  have fifth := Archive.weight_takeCompleted
    (a := (Archive.takeNotices (Archive.resume a' record'.stream)).2)
  rw [_closed] at second
  simp only at second
  omega

end Records

open Gzip (Container)

def members (quiet : Bool) (c : Container) (p : Progress) : Outcome ScanError Progress Unit :=
  match _next : c.next with
  | (.error e, c') => (.error (.gzip e), p.note c'.notices)
  | (.ok none, c') => (.ok (), p.note c'.notices)
  | (.ok (some _), c') =>
    match _finished : c'.finish with
    | (answer, behind) =>
      let p := p.note behind.notices
      match answer with
      | .error e => (.error (.stream e), p)
      | .ok m => members quiet behind.takeNotices.2 (p.members quiet m.toList)
termination_by Readable.weight c
decreasing_by
  have first := Container.weight_next _next
  have second := Container.weight_finish_le c'
  rw [_finished] at second
  exact Nat.lt_of_le_of_lt second first

def run (format : Format) (options : ReaderOptions) (quiet : Bool) (source : Source) :
    Outcome ScanError Progress Unit :=
  match format with
  | .arc => records quiet .arc (PlainArchive.arc source options) {}
  | .arcGz => records quiet .arc (PackedArchive.arc source options) {}
  | .warc => records quiet .warc (PlainArchive.warc source options) {}
  | .warcGz => records quiet .warc (PackedArchive.warc source options) {}
  | .gzip => members quiet (.start source) {}

end Scan
end WebArchive

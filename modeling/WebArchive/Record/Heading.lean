import WebArchive.Arc.Header
import WebArchive.Warc.Header

/-!
What the header of a record says about its content, in either format.
-/
namespace WebArchive

inductive Heading where
  | arc (header : Arc.Header)
  | warc (header : Warc.Header)

namespace Heading

def kind : Heading → String
  | .arc _ => "arc"
  | .warc _ => "warc"

/-- The field that diagnostics about the record as a whole name. -/
def recordField : Heading → String
  | .arc _ => Arc.recordField
  | .warc _ => Warc.recordField

def startOffset : Heading → Option Nat
  | .arc h => h.startOffset
  | .warc h => h.startOffset

def length : Heading → Option Nat
  | .arc h => h.length
  | .warc h => h.contentLength

/-- The content is an HTTP message, so that there may be an entity in it. -/
def isHttp : Heading → Bool
  | .arc h => h.isHttp
  | .warc h => h.isHttp

def diagnostics : Heading → Diagnostics
  | .arc h => h.diagnostics
  | .warc h => h.diagnostics

def isCompliant : Heading → Bool
  | .arc h => h.isCompliant
  | .warc h => h.isCompliant

end Heading
end WebArchive

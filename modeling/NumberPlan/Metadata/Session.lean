import NumberPlan.Metadata.Source

/-!
# A source in use

In a session questions are put to a source while its files come and go.

    s.reply w q      what the source answers, asks for and keeps
    s.after fs es    the files and the records after the events es, from nothing loaded
-/

namespace NumberPlan

/-- A question to a source. -/
inductive Query where
  | region (region : String)
  | nonGeographic (code : Int)
  | either (code : Int) (region : String)
  deriving DecidableEq, Repr

/-- The key that is asked for. -/
def Query.key : Query → RecordKey
  | region r => .region r
  | nonGeographic c => .code c
  | either c r => if Region.isNonGeographic r then .code c else .region r

/-- The files that there are, and what has been loaded. -/
structure Session where
  files : Files
  archive : Archive

/-- What happens in a session. -/
inductive SessionEvent where
  | put (file : String) (bytes : List UInt8)
  | delete (file : String)
  | ask (q : Query)
  deriving DecidableEq, Repr

namespace Source

/-- Puts a question. -/
def reply (s : Source) (w : Session) : Query → Reply Archive Answer
  | .region r => s.ofRegion w.files r w.archive
  | .nonGeographic c => s.ofNonGeographic w.files c w.archive
  | .either c r => s.ofEither w.files c r w.archive

/-- The session after an event. -/
def next (s : Source) (w : Session) : SessionEvent → Session
  | .put file bytes => { w with files := w.files.put file bytes }
  | .delete file => { w with files := w.files.delete file }
  | .ask q => { w with archive := (s.reply w q).state }

/-- The session after events, when nothing was loaded before. -/
def after (s : Source) (files : Files) (es : List SessionEvent) : Session :=
  es.foldl s.next ⟨files, .empty⟩

/-- The answers to the questions among the events, each with the files asked for. -/
def replies (s : Source) : Session → List SessionEvent → List (Answer × List String)
  | _, [] => []
  | w, .ask q :: es =>
    ((s.reply w q).answer, (s.reply w q).asked) :: s.replies (s.next w (.ask q)) es
  | w, e :: es => s.replies (s.next w e) es

end Source

end NumberPlan

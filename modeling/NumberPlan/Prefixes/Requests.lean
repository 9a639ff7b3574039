import NumberPlan.Prefixes.FileReader

/-!
# A reader in use

Requests are put to a reader one after the other, while the files stay as they are.

    r.reply files q       what the reader answers, asks for and keeps
    r.after files qs      the reader after the requests qs
    r.asked files qs      the files that it has asked for by then, in order
-/

namespace NumberPlan

/-- A request for the description of a number. -/
structure NumberRequest where
  code : Int
  number : String
  locale : Mapping.Locale
  deriving DecidableEq, Repr

namespace NumberRequest

/-- The key of the number's file. -/
def key? (q : NumberRequest) : Option Int := PrefixReader.fileKey? q.code q.number

/-- What a map says about the number, unless that is nothing. -/
def describedIn (q : NumberRequest) (m : Option PrefixMap) : Option String :=
  PrefixReader.describeIn m q.code q.number

end NumberRequest

namespace PrefixReader

/-- Puts a request. -/
def reply (files : Files) (r : PrefixReader) (q : NumberRequest) :
    Reply PrefixReader (Except PrefixError String) :=
  r.describe files q.code q.number q.locale

/-- The reader after requests. -/
def after (files : Files) (r : PrefixReader) (qs : List NumberRequest) : PrefixReader :=
  qs.foldl (fun r q => (r.reply files q).state) r

/-- The files that are asked for in the course of requests. -/
def asked (files : Files) : (r : PrefixReader) → List NumberRequest → List String
  | _, [] => []
  | r, q :: qs => (r.reply files q).asked ++ asked files (r.reply files q).state qs

end PrefixReader

end NumberPlan

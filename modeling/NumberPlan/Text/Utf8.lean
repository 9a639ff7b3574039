/-!
# UTF-8

    ofUtf8? (utf8 s) = some s
-/

namespace NumberPlan

/-- The UTF-8 bytes of a text. -/
def utf8 (s : String) : List UInt8 := s.toUTF8.data.toList

/-- The text with these UTF-8 bytes, if they are valid. -/
def ofUtf8? (bytes : List UInt8) : Option String := String.fromUTF8? ⟨bytes.toArray⟩

end NumberPlan

import TypeResolution.Diagnostic
import TypeResolution.Json.Vocabulary

/-!
The written form of diagnostics. Secondary locations are left out when there are none.
-/

namespace TypeResolution

def encodePlace (location : Option SourceTag) : Json := encodeOption (location.map (·.encode))

def RelatedLocation.encode (r : RelatedLocation) : Json :=
  .record [("location", encodePlace r.location), ("message", .text r.message)]

def Diagnostic.encode (d : Diagnostic) : Json :=
  .record ([("kind", .text d.kind.name), ("code", .nat d.code), ("category", .text d.category.name),
    ("message", .text d.message), ("location", encodePlace d.location)]
    ++ if d.related.isEmpty then [] else [("related", .array (d.related.map (·.encode)))])

end TypeResolution

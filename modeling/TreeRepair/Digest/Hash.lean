/-!
Hash functions as values. What is said about content keys, checksums and hash chains holds for every
function that is put in their place.
-/
namespace TreeRepair

/-- A hash function from byte strings to texts. -/
abbrev HashFunction := ByteArray → String

end TreeRepair

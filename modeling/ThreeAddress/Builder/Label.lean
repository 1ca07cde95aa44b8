/-
Names for the labels of generated code. Every label carries a running number, so
no two labels of one source are equal; the depth of the control statements
around it and its purpose are written into it for the reader of the listing.
-/

namespace ThreeAddress.Builder

/-- A source of fresh labels. -/
structure LabelSource where
  /-- The number of the next label. -/
  counter : Nat := 0
deriving DecidableEq, Repr

/-- A fresh label for a purpose, inside control statements of the given depth. -/
def LabelSource.next (source : LabelSource) (purpose : String) (depth : Nat) :
    String × LabelSource :=
  ("%LABEL_" ++ toString source.counter ++ "_DEPTH_" ++ toString depth ++ "_$" ++ purpose,
    { counter := source.counter + 1 })

end ThreeAddress.Builder

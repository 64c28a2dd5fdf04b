import LayerOverrides.Text.Blank
/-!
# Words of a fixed vocabulary

Documents spell kinds, states and platforms as upper-case ASCII words and are read without regard
to ASCII case.
-/

namespace LayerOverrides.Text

/-- Equality up to the case of ASCII letters. -/
def spells (word s : List Char) : Bool :=
  word.map Char.toLower == s.map Char.toLower

/-- The first member of a vocabulary whose word the text spells. -/
def findSpelled {α : Type} (vocabulary : List α) (word : α → String) (s : List Char) : Option α :=
  vocabulary.find? fun a => spells (word a).toList s

end LayerOverrides.Text

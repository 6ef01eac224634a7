import ShaderSyntax.Vocabulary

/-!
# The index of words

One table for the words of all vocabularies. The vocabularies are entered one after the other, in
any order, and a later entry of a word takes the place of an earlier one.
-/
namespace ShaderSyntax

/-- The classes that have a word list. -/
def WordClass.vocabularies : List WordClass :=
  all.filter fun c => c.words?.isSome

/-- The class entered for a word, if there is one. -/
abbrev WordIndex :=
  Text → Option WordClass

namespace WordIndex

def empty : WordIndex := fun _ => none

/-- The index with one entry more, in place of any entry of the same word. -/
def put (index : WordIndex) (w : Text) (c : WordClass) : WordIndex :=
  fun w' => if w' = w then some c else index w'

/-- Enters the words of a vocabulary. -/
def enter (index : WordIndex) (c : WordClass) : WordIndex :=
  (c.words?.getD []).foldl (fun index w => index.put w c) index

/-- The index after the vocabularies were entered in the given order. -/
def ofOrder (order : List WordClass) : WordIndex :=
  order.foldl enter empty

/-- The class that the index gives a word. A word without an entry is plain. -/
def classOf (index : WordIndex) (w : Text) : WordClass :=
  (index w).getD .plain

end WordIndex

end ShaderSyntax

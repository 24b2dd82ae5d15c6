/-!
# Similar words

Two words are similar if they share enough of their characters in long enough pieces: the longest
piece they have in common counts, and so do the pieces shared by what is left of it and by what is
right of it.
-/

namespace YamlCheck.Text.Similarity

def sharedLength : List Char → List Char → Nat
  | a :: as, b :: bs => if a == b then sharedLength as bs + 1 else 0
  | _, _ => 0

structure Piece where
  left : Nat
  right : Nat
  length : Nat

def Piece.longer (p q : Piece) : Piece := if p.length < q.length then q else p

/-- The longest piece that starts at place `i` of the first word, whose rest is `a`. -/
def pieceAt (i : Nat) (a : List Char) : Nat → Piece → List Char → Piece
  | j, best, b :: bs => pieceAt i a (j + 1) (best.longer ⟨i, j, sharedLength a (b :: bs)⟩) bs
  | _, best, [] => best

/-- The longest piece that starts at place `i` of the first word or after it. -/
def pieceFrom (b : List Char) : Nat → Piece → List Char → Piece
  | i, best, a :: as => pieceFrom b (i + 1) (pieceAt i (a :: as) 0 best b) as
  | _, best, [] => best

/-- The longest piece that two words have in common; of several the one that starts first. -/
def longestPiece (a b : List Char) : Piece := pieceFrom b 0 ⟨0, 0, 0⟩ a

/-- The number of characters in the pieces that two words have in common; `fuel` bounds the number
of pieces in a row. -/
def sharedCount : Nat → List Char → List Char → Nat
  | 0, _, _ => 0
  | fuel + 1, a, b =>
    let p := longestPiece a b
    if p.length == 0 then 0
    else
      sharedCount fuel (a.take p.left) (b.take p.right) + p.length
        + sharedCount fuel (a.drop (p.left + p.length)) (b.drop (p.right + p.length))

/-- How similar a candidate is to a word: the shared characters out of all characters of both. -/
structure Score where
  candidate : String
  shared : Nat
  total : Nat

def score (word candidate : String) : Score :=
  let a := candidate.toList
  let b := word.toList
  ⟨candidate, 2 * sharedCount (a.length + 1) a b, a.length + b.length⟩

/-- At least three characters in five are shared. -/
def Score.enough (s : Score) : Bool := 3 * s.total ≤ 5 * s.shared

/-- Whether one score is to be named before another: the better one, and of two equally good ones
the one whose candidate comes later in the alphabet. -/
def Score.before (s t : Score) : Bool :=
  t.shared * s.total < s.shared * t.total
    || (t.shared * s.total == s.shared * t.total && t.candidate < s.candidate)

def insert (s : Score) : List Score → List Score
  | [] => [s]
  | t :: rest => if t.before s then t :: insert s rest else s :: t :: rest

/-- Up to three candidates that are similar to a word, the most similar one first. -/
def closest (word : String) (candidates : List String) : List String :=
  let scores := (candidates.map (score word)).filter Score.enough
  ((scores.foldr insert []).take 3).map Score.candidate

end YamlCheck.Text.Similarity

import BlockPresence.Advice.Templates

/-!
# Plain templates

A template is plain if it can be read and asks for the value only as it is. Plain templates can be filled with whatever
value (`exists_fill_of_isPlain`).
-/

namespace BlockPresence.Template

/-- The hole that asks for the value as it is. -/
def Hole.bare : Hole := { field := ['n', 'a', 'm', 'e'] }

theorem Hole.fill_bare (value : List Char) (expand : List Char → Except Fault (List Char)) :
    bare.fill value expand = .ok value := by
  have hs : select value bare.field = .ok (.text value) := by
    have hd : bare.field.dropWhile isNameChar = [] := by decide
    have hn : checkName (bare.field.takeWhile isNameChar) = .ok () := by rfl
    rw [select, hd, hn, follow]
    rfl
  have hl : (Subject.text value).layOut [] = .ok value := by
    have hr : Layout.read [] = .ok {} := rfl
    rw [Subject.layOut, hr]
    change Except.ok (Layout.apply {} value) = .ok value
    simp [Layout.apply, Layout.pad]
  rw [Hole.fill, hs]
  exact hl

/-- Whether a piece is a literal or asks for the value as it is. -/
def Piece.isPlain : Piece → Bool
  | .literal _ => true
  | .hole h => h = Hole.bare
  | .fault _ => false

/-- Whether a template can be read and asks for the value only as it is. -/
def isPlain (t : Template) : Bool := (pieces t.text.toList).all Piece.isPlain

variable (value : List Char) (expand : List Char → Except Fault (List Char))

theorem exists_fill_of_piece {p : Piece} (h : p.isPlain = true) : ∃ cs, p.fill value expand = .ok cs := by
  cases p with
  | literal c => exact ⟨[c], rfl⟩
  | hole hole =>
    cases of_decide_eq_true h
    exact ⟨value, Hole.fill_bare value expand⟩
  | fault f => cases h

theorem exists_mapM_fill : ∀ {ps : List Piece}, ps.all Piece.isPlain = true →
    ∃ css, ps.mapM (Piece.fill value expand) = .ok css
  | [], _ => ⟨[], rfl⟩
  | p :: ps, h => by
    rw [List.all_cons, Bool.and_eq_true] at h
    obtain ⟨cs, hp⟩ := exists_fill_of_piece value expand h.1
    obtain ⟨css, hs⟩ := exists_mapM_fill h.2
    exact ⟨cs :: css, by rw [List.mapM_cons, hp, hs]; rfl⟩

theorem exists_fill_of_isPlain {t : Template} (h : t.isPlain = true) (value : String) :
    ∃ text, t.fill value = .ok text := by
  obtain ⟨css, hs⟩ := exists_mapM_fill value.toList (fillText value.toList 1) h
  exact ⟨String.ofList css.flatten, by rw [fill, maxDepth, fillText, hs]; rfl⟩

end BlockPresence.Template

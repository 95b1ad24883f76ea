import BlockPresence.Proofs.Text.Plain

/-!
# Joined templates

What stands behind a template does not change how the template is read, as long as it can be read to its end
(`pieces_append`). So two templates that can be filled can be filled when they are joined, each with what it gives on its
own (`fill_append`): no brace at the end of one meets a brace at the start of the other.

Any text is what some template gives, whatever the value: the text with its braces doubled (`ofText`).
-/

namespace BlockPresence.Template

/-- Two templates, one behind the other. -/
instance : Append Template := ⟨fun t t' => ⟨t.text ++ t'.text⟩⟩

theorem toList_append (t t' : Template) : (t ++ t').text.toList = t.text.toList ++ t'.text.toList := String.toList_append

/-! ## Reading -/

theorem exists_of_bind_eq_ok {ε α β : Type} {x : Except ε α} {f : α → Except ε β} {b : β} (h : x >>= f = .ok b) :
    ∃ a, x = .ok a ∧ f a = .ok b := by
  cases x with
  | error e => cases h
  | ok a => exact ⟨a, rfl, h⟩

section Reading

variable {cs rest behind : List Char}

theorem splitField_append {b : Bool} {field : List Char} {mark : Char} (h : splitField b cs = .ok (field, mark, rest)) :
    splitField b (cs ++ behind) = .ok (field, mark, rest ++ behind) := by
  induction cs generalizing b field with
  | nil => cases h
  | cons c cs ih =>
    rw [splitField] at h
    rw [List.cons_append, splitField]
    by_cases hopen : (!b) = true ∧ c = openBrace
    · rw [if_pos hopen] at h
      cases h
    rw [if_neg hopen] at h ⊢
    by_cases hmark : (!b) = true ∧ (c = closeBrace ∨ c = ':' ∨ c = '!')
    · rw [if_pos hmark] at h ⊢
      cases h
      rfl
    rw [if_neg hmark] at h ⊢
    obtain ⟨⟨field', mark', rest'⟩, hs, he⟩ := exists_of_map_eq_ok h
    cases he
    change (splitField _ (cs ++ behind)).map _ = _
    rw [ih hs]
    rfl

theorem splitLayout_append {depth : Nat} {layout : List Char} (h : splitLayout depth cs = .ok (layout, rest)) :
    splitLayout depth (cs ++ behind) = .ok (layout, rest ++ behind) := by
  induction cs generalizing depth layout with
  | nil => cases h
  | cons c cs ih =>
    rw [splitLayout] at h
    rw [List.cons_append, splitLayout]
    by_cases hend : c = closeBrace ∧ depth = 0
    · rw [if_pos hend] at h ⊢
      cases h
      rfl
    rw [if_neg hend] at h ⊢
    obtain ⟨⟨layout', rest'⟩, hs, he⟩ := exists_of_map_eq_ok h
    cases he
    change (splitLayout _ (cs ++ behind)).map _ = _
    rw [ih hs]
    rfl

theorem splitMarks_append {mark : Char} {conversion : Option Char} {layout : List Char}
    (h : splitMarks mark cs = .ok (conversion, layout, rest)) :
    splitMarks mark (cs ++ behind) = .ok (conversion, layout, rest ++ behind) := by
  have key : ∀ {c : Option Char} {cs : List Char},
      (splitLayout 0 cs).map (fun read => (c, read.1, read.2)) = .ok (conversion, layout, rest) →
      (splitLayout 0 (cs ++ behind)).map (fun read => (c, read.1, read.2)) = .ok (conversion, layout, rest ++ behind) := by
    intro c cs h
    obtain ⟨⟨layout', rest'⟩, hs, he⟩ := exists_of_map_eq_ok h
    cases he
    rw [splitLayout_append hs]
    rfl
  unfold splitMarks at h ⊢
  by_cases hend : mark = closeBrace
  · rw [if_pos hend] at h ⊢
    cases h
    rfl
  rw [if_neg hend] at h ⊢
  by_cases hlayout : mark = ':'
  · rw [if_pos hlayout] at h ⊢
    exact key h
  rw [if_neg hlayout] at h ⊢
  -- a conversion and the character after it are there already, or the marks could not be read
  cases cs with
  | nil => cases h
  | cons conversion' cs =>
  cases cs with
  | nil => cases h
  | cons c cs =>
    simp only [List.cons_append] at h ⊢
    by_cases hend : c = closeBrace
    · rw [if_pos hend] at h ⊢
      cases h
      rfl
    rw [if_neg hend] at h ⊢
    by_cases hlayout : c = ':'
    · rw [if_pos hlayout] at h ⊢
      exact key h
    · rw [if_neg hlayout] at h
      cases h

theorem readHole_append {hole : Hole} (h : readHole cs = .ok (hole, rest)) :
    readHole (cs ++ behind) = .ok (hole, rest ++ behind) := by
  unfold readHole at h ⊢
  obtain ⟨⟨field, mark, afterField⟩, hf, h⟩ := exists_of_bind_eq_ok h
  obtain ⟨⟨conversion, layout, afterHole⟩, hm, h⟩ := exists_of_bind_eq_ok h
  cases h
  rw [splitField_append hf]
  change (splitMarks mark (afterField ++ behind) >>= _) = _
  rw [splitMarks_append hm]
  rfl

theorem openBrace_ne_closeBrace : openBrace ≠ closeBrace := by decide

@[simp] theorem pieces_nil : pieces [] = [] := by rw [pieces]

theorem pieces_open_open (cs : List Char) : pieces (openBrace :: openBrace :: cs) = .literal openBrace :: pieces cs := by
  rw [pieces, if_pos rfl, if_pos rfl]

theorem pieces_close_close (cs : List Char) :
    pieces (closeBrace :: closeBrace :: cs) = .literal closeBrace :: pieces cs := by
  rw [pieces, if_neg openBrace_ne_closeBrace.symm, if_pos rfl, if_pos rfl]

theorem pieces_literal {c : Char} (ho : c ≠ openBrace) (hc : c ≠ closeBrace) (cs : List Char) :
    pieces (c :: cs) = .literal c :: pieces cs := by
  cases cs with
  | nil => rw [pieces_nil, pieces, if_neg ho, if_neg hc]
  | cons d cs => rw [pieces, if_neg ho, if_neg hc]

theorem pieces_hole {d : Char} (hd : d ≠ openBrace) {hole : Hole} (h : readHole (d :: cs) = .ok (hole, rest)) :
    pieces (openBrace :: d :: cs) = .hole hole :: pieces rest := by
  rw [pieces, if_pos rfl, if_neg hd]
  split
  · rename_i f hf
    rw [h] at hf
    cases hf
  · rename_i hole' after hf
    rw [h] at hf
    cases hf
    rfl

theorem pieces_hole_error {d : Char} (hd : d ≠ openBrace) {f : Fault} (h : readHole (d :: cs) = .error f) :
    pieces (openBrace :: d :: cs) = [.fault f] := by
  rw [pieces, if_pos rfl, if_neg hd]
  split
  · rename_i f' hf
    rw [h] at hf
    cases hf
    rfl
  · rename_i hole after hf
    rw [h] at hf
    cases hf

/-- **A template that can be read to its end** is read the same with more behind it, and what is behind it is read as if it
stood alone. -/
theorem pieces_append (hread : ∀ f, .fault f ∉ pieces cs) : pieces (cs ++ behind) = pieces cs ++ pieces behind := by
  -- where reading fails, the fault is the last piece, and the template has none
  induction cs using pieces.induct with
  | case1 => rw [pieces_nil, List.nil_append, List.nil_append]
  | case2 => exact absurd (by rw [pieces, if_pos rfl]; exact .head _) (hread .loneOpen)
  | case3 hne => exact absurd (by rw [pieces, if_neg hne, if_pos rfl]; exact .head _) (hread .loneClose)
  | case4 c ho hc =>
    rw [List.singleton_append, pieces_literal ho hc, pieces_literal ho hc, pieces_nil, List.singleton_append]
  | case5 rest ih =>
    rw [pieces_open_open] at hread
    rw [List.cons_append, List.cons_append, pieces_open_open, pieces_open_open, List.cons_append,
      ih fun f hf => hread f (.tail _ hf)]
  | case6 d rest hd f hf =>
    exact absurd (by rw [pieces_hole_error hd hf]; exact .head _) (hread f)
  | case7 d rest hd hole after hh _ ih =>
    -- a hole that is closed ends at the same brace with more behind it
    have hh' : readHole (d :: (rest ++ behind)) = .ok (hole, after ++ behind) := readHole_append hh
    rw [pieces_hole hd hh] at hread
    rw [List.cons_append, List.cons_append, pieces_hole hd hh, pieces_hole hd hh', List.cons_append,
      ih fun f hf => hread f (.tail _ hf)]
  | case8 rest _ ih =>
    rw [pieces_close_close] at hread
    rw [List.cons_append, List.cons_append, pieces_close_close, pieces_close_close, List.cons_append,
      ih fun f hf => hread f (.tail _ hf)]
  | case9 d rest hd hne =>
    exact absurd (by rw [pieces, if_neg hne, if_pos rfl, if_neg hd]; exact .head _) (hread .loneClose)
  | case10 c d rest ho hc ih =>
    rw [pieces_literal ho hc] at hread
    rw [List.cons_append, pieces_literal ho hc, pieces_literal ho hc, ih fun f hf => hread f (.tail _ hf),
      List.cons_append]

end Reading

/-! ## Filling -/

section Filling

variable {value : List Char} {depth : Nat} {cs cs' : List Char}

theorem fillText_eq_ok_iff {out : List Char} : fillText value (depth + 1) cs = .ok out ↔
    ∃ outs, (pieces cs).mapM (Piece.fill value (fillText value depth)) = .ok outs ∧ outs.flatten = out := by
  rw [fillText]
  constructor
  · exact exists_of_map_eq_ok
  · rintro ⟨outs, hm, rfl⟩
    rw [hm]
    rfl

/-- Templates that can be filled can be read to their end. -/
theorem not_mem_fault_of_mapM_eq_ok {ps : List Piece} {expand : List Char → Except Fault (List Char)}
    {outs : List (List Char)} (h : ps.mapM (Piece.fill value expand) = .ok outs) (f : Fault) : .fault f ∉ ps := by
  induction ps generalizing outs with
  | nil => exact List.not_mem_nil
  | cons p ps ih =>
    rw [List.mapM_cons] at h
    obtain ⟨out, hp, h⟩ := exists_of_bind_eq_ok h
    obtain ⟨outs', hps, -⟩ := exists_of_bind_eq_ok h
    rintro (_ | ⟨_, hm⟩)
    · cases hp
    · exact ih hps hm

theorem fillText_append {out out' : List Char} (h : fillText value depth cs = .ok out)
    (h' : fillText value depth cs' = .ok out') : fillText value depth (cs ++ cs') = .ok (out ++ out') := by
  cases depth with
  | zero => cases h
  | succ depth =>
    obtain ⟨outs, hm, rfl⟩ := fillText_eq_ok_iff.1 h
    obtain ⟨outs', hm', rfl⟩ := fillText_eq_ok_iff.1 h'
    refine fillText_eq_ok_iff.2 ⟨outs ++ outs', ?_, List.flatten_append⟩
    rw [pieces_append (not_mem_fault_of_mapM_eq_ok hm), List.mapM_append, hm, hm']
    rfl

end Filling

theorem fill_eq_ok_iff {t : Template} {value text : String} :
    t.fill value = .ok text ↔ fillText value.toList maxDepth t.text.toList = .ok text.toList := by
  rw [fill]
  cases fillText value.toList maxDepth t.text.toList with
  | error f => simp [Except.map]
  | ok out => simp [Except.map, String.ext_iff]

/-- **Two templates that can be filled** can be filled when they are joined, each with what it gives on its own. -/
theorem fill_append {t t' : Template} {value text text' : String} (h : t.fill value = .ok text)
    (h' : t'.fill value = .ok text') : (t ++ t').fill value = .ok (text ++ text') := by
  rw [fill_eq_ok_iff] at h h' ⊢
  rw [toList_append, String.toList_append]
  exact fillText_append h h'

/-! ## Templates of texts -/

/-- How a character is written in a template. -/
def written (c : Char) : List Char := if c = openBrace ∨ c = closeBrace then [c, c] else [c]

/-- The template of a text: the text with its braces doubled. -/
def ofText (text : String) : Template := ⟨String.ofList (text.toList.flatMap written)⟩

/-- The template that asks for the value and holds nothing else. -/
def bare : Template := ⟨"\x7bname\x7d"⟩

theorem pieces_written_append (c : Char) (cs : List Char) : pieces (written c ++ cs) = .literal c :: pieces cs := by
  unfold written
  by_cases ho : c = openBrace
  · subst ho
    rw [if_pos (.inl rfl)]
    exact pieces_open_open cs
  by_cases hc : c = closeBrace
  · subst hc
    rw [if_pos (.inr rfl)]
    exact pieces_close_close cs
  · rw [if_neg (not_or.2 ⟨ho, hc⟩)]
    exact pieces_literal ho hc cs

theorem pieces_flatMap_written (cs : List Char) : pieces (cs.flatMap written) = cs.map .literal := by
  induction cs with
  | nil => exact pieces_nil
  | cons c cs ih => rw [List.flatMap_cons, pieces_written_append, ih, List.map_cons]

theorem mapM_fill_literals (value : List Char) (expand : List Char → Except Fault (List Char)) (cs : List Char) :
    (cs.map Piece.literal).mapM (Piece.fill value expand) = .ok (cs.map fun c => [c]) := by
  induction cs with
  | nil => rfl
  | cons c cs ih =>
    rw [List.map_cons, List.mapM_cons, ih]
    rfl

theorem fill_ofText (text value : String) : (ofText text).fill value = .ok text := by
  refine fill_eq_ok_iff.2 (fillText_eq_ok_iff.2 ⟨text.toList.map fun c => [c], ?_, ?_⟩)
  · rw [ofText, String.toList_ofList, pieces_flatMap_written, mapM_fill_literals]
  · induction text.toList with
    | nil => rfl
    | cons c cs ih => rw [List.map_cons, List.flatten_cons, ih, List.singleton_append]

theorem pieces_bare : pieces bare.text.toList = [.hole .bare] := by
  have hr : readHole ['n', 'a', 'm', 'e', closeBrace] = .ok (.bare, []) := rfl
  have hb : bare.text.toList = openBrace :: ['n', 'a', 'm', 'e', closeBrace] := by decide
  rw [hb, pieces_hole (by decide) hr, pieces_nil]

theorem fill_bare (value : String) : bare.fill value = .ok value := by
  refine fill_eq_ok_iff.2 (fillText_eq_ok_iff.2 ⟨[value.toList], ?_, by simp⟩)
  rw [pieces_bare, List.mapM_cons, Piece.fill, Hole.fill_bare]
  rfl

end BlockPresence.Template

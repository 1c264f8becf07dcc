import TypeResolution.Evaluation.Texts
import TypeResolution.Proofs.Limits.Descent
import TypeResolution.Proofs.Normal.Form
import TypeResolution.Proofs.Replay.Substitution
import TypeResolution.Proofs.Template.Matching

/-!
What the holes of a template allow. Two tables say it: one lists the texts of a hole when these are
finitely many, the other answers for one piece of text. They agree on holes that are made of
`string`, `any`, `number`, `boolean` and string literals; the other literals, `null` and `undefined`
are only in the first one.
-/

namespace TypeResolution

theorem forall₂_of_mapM {α β : Type} {f : α → Option β} {l : List α} {l' : List β}
    (h : l.mapM f = some l') : List.Forall₂ (fun a b => a ∈ l ∧ f a = some b) l l' := by
  induction l generalizing l' with
  | nil =>
      cases h
      exact .nil
  | cons a rest ih =>
      simp only [List.mapM_cons, bind, Option.bind_eq_some_iff, pure, Option.some.injEq] at h
      obtain ⟨b, hb, bs, hbs, rfl⟩ := h
      apply List.Forall₂.cons ⟨List.mem_cons_self .., hb⟩
      exact (ih hbs).imp fun _ _ h => ⟨List.mem_cons_of_mem _ h.1, h.2⟩

/-- The parts of holes that both tables know. -/
def Node.isFiller : Node → Bool
  | .intrinsic .string | .intrinsic .any | .intrinsic .number | .intrinsic .boolean => true
  | .literal (.string _) => true
  | _ => false

namespace Template

variable {s s' : Store} {t : TypeId} {piece : List Char} {spans : List Span}
  {texts starts : List String} {text : String}

/-- The pieces of text that a hole stands for. -/
inductive Allows (s : Store) : TypeId → List Char → Prop
  | anything {t : TypeId} {piece : List Char} :
      s.node t = .intrinsic .string ∨ s.node t = .intrinsic .any → Allows s t piece
  | numeral {t : TypeId} {piece : List Char} : s.node t = .intrinsic .number → piece ≠ [] →
      Number.isSpelled piece → Allows s t piece
  | listed {t : TypeId} {texts : List String} {text : String} : literalTexts s t = some texts →
      text ∈ texts → Allows s t text.toList
  | member {t m : TypeId} {ms : List TypeId} {piece : List Char} : s.node t = .union ms → m ∈ ms →
      Allows s m piece → Allows s t piece

/-- A hole in normal form that both tables know. -/
inductive Fillable (s : Store) : TypeId → Prop
  | leaf {t : TypeId} : t.index < s.size → (s.node t).isFiller → Fillable s t
  | union {t : TypeId} {ms : List TypeId} : t.index < s.size → s.node t = .union ms →
      (Node.union ms).InForm s → (∀ m ∈ ms, Fillable s m) → Fillable s t

theorem Fillable.known (h : Fillable s t) : t.index < s.size := by
  cases h <;> assumption

theorem Fillable.mono (h : Fillable s t) (hs : s.Extends s') : Fillable s' t := by
  induction h with
  | @leaf t ht hn =>
      apply Fillable.leaf (Nat.lt_of_lt_of_le ht hs.size_le)
      rwa [hs.node_eq t ht]
  | @union t ms ht hn hform hms ih =>
      apply Fillable.union (Nat.lt_of_lt_of_le ht hs.size_le) ((hs.node_eq t ht).trans hn) _ ih
      exact hform.congr hs.numbers_eq fun _ m hm => hs.node_eq m (hms m hm).known

theorem Fillable.isMeta (h : Fillable s t) : (s.node t).isMeta = false := by
  cases h with
  | leaf _ hn => cases hnode : s.node t <;> simp_all [Node.isFiller, Node.isMeta]
  | union _ hn =>
      rw [hn]
      rfl

theorem not_fillable (h : Fillable s t) (hfiller : (s.node t).isFiller = false)
    (hunion : ∀ ms, s.node t ≠ .union ms) : False := by
  cases h with
  | leaf _ hn => simp [hfiller] at hn
  | union _ hn => exact hunion _ hn

section tables

variable (hs : s.Formed)

include hs

theorem literalTexts_union {ms : List TypeId} (ht : t.index < s.size) (hn : s.node t = .union ms) :
    literalTexts s t = (ms.mapM (literalTexts s)).map (·.flatten) := by
  rw [literalTexts, literalTextsAt, hn]
  apply congrArg (Option.map _)
  apply mapM_congr_of_mem
  intro m hm
  exact hs.literalTextsAt_eq_literalTexts (hs.descends t ht m (by rw [hn]; exact hm))

theorem holeAccepts_union {ms : List TypeId} (ht : t.index < s.size) (hn : s.node t = .union ms) :
    holeAccepts s piece t = ms.any (holeAccepts s piece) := by
  rw [holeAccepts, holeAcceptsAt, hn]
  apply any_congr_of_mem
  intro m hm
  exact hs.holeAcceptsAt_eq_holeAccepts piece (hs.descends t ht m (by rw [hn]; exact hm))

omit hs in
theorem literalTexts_of_open (h : s.node t = .intrinsic .string ∨ s.node t = .intrinsic .any) :
    literalTexts s t = none := by
  rcases h with h | h <;> simp [literalTexts, literalTextsAt, h]

omit hs in
theorem literalTexts_of_number (h : s.node t = .intrinsic .number) : literalTexts s t = none := by
  simp [literalTexts, literalTextsAt, h]

theorem allows_union_iff {ms : List TypeId} (ht : t.index < s.size) (hn : s.node t = .union ms) :
    Allows s t piece ↔ ∃ m ∈ ms, Allows s m piece := by
  constructor
  · intro h
    cases h with
    | anything hopen => rcases hopen with hopen | hopen <;> cases hn.symm.trans hopen
    | numeral hnumber _ _ => cases hn.symm.trans hnumber
    | member hunion hm hmember =>
        cases hn.symm.trans hunion
        exact ⟨_, hm, hmember⟩
    | @listed _ texts text htexts hmem =>
        rw [literalTexts_union hs ht hn] at htexts
        obtain ⟨lists, hlists, rfl⟩ := Option.map_eq_some_iff.mp htexts
        have hparts := exists_iff_of_forall₂ (forall₂_of_mapM hlists) (q := fun list => text ∈ list)
          (p := fun m => ∃ list, literalTexts s m = some list ∧ text ∈ list)
          fun m list hlist => by simp [hlist.2]
        obtain ⟨m, hm, list, hlist, htext⟩ := hparts.mp (List.mem_flatten.mp hmem)
        exact ⟨m, hm, .listed hlist htext⟩
  · rintro ⟨m, hm, h⟩
    exact .member hn hm h

/-- The listed texts are all that the hole allows. -/
theorem allows_listed (h : Fillable s t) (htexts : literalTexts s t = some texts) :
    Allows s t piece ↔ ∃ text ∈ texts, piece = text.toList := by
  induction h generalizing texts with
  | @leaf t ht hn =>
      constructor
      · intro h
        cases h with
        | anything hopen => cases htexts.symm.trans (literalTexts_of_open hopen)
        | numeral hnumber => cases htexts.symm.trans (literalTexts_of_number hnumber)
        | listed htexts' hmem =>
            cases htexts.symm.trans htexts'
            exact ⟨_, hmem, rfl⟩
        | member hunion => simp [hunion, Node.isFiller] at hn
      · rintro ⟨text, hmem, rfl⟩
        exact .listed htexts hmem
  | @union t ms ht hn hform hms ih =>
      rw [literalTexts_union hs ht hn] at htexts
      obtain ⟨lists, hlists, rfl⟩ := Option.map_eq_some_iff.mp htexts
      rw [allows_union_iff hs ht hn, ← exists_iff_of_forall₂ (forall₂_of_mapM hlists)
        fun m list hlist => (ih m hlist.1 hlist.2).symm]
      simp only [List.mem_flatten]
      constructor
      · rintro ⟨list, hlist, text, htext, rfl⟩
        exact ⟨text, ⟨list, hlist, htext⟩, rfl⟩
      · rintro ⟨text, ⟨list, hlist, htext⟩, rfl⟩
        exact ⟨list, hlist, text, htext, rfl⟩

/-- The table that answers for one piece of text. -/
theorem holeAccepts_iff (h : Fillable s t) : holeAccepts s piece.reverse t ↔ Allows s t piece := by
  induction h with
  | @leaf t ht hn =>
      have hleaf := Fillable.leaf ht hn
      have hlisted : ∀ list, literalTexts s t = some list →
          (Allows s t piece ↔ ∃ text ∈ list, piece = text.toList) := fun _ => allows_listed hs hleaf
      rw [holeAccepts, holeAcceptsAt]
      cases hnode : s.node t with
      | intrinsic k =>
          cases k with
          | string => simp [Allows.anything (.inl hnode)]
          | any => simp [Allows.anything (.inr hnode)]
          | boolean =>
              rw [hlisted ["false", "true"] (by simp [literalTexts, literalTextsAt, hnode])]
              simp [or_comm]
          | number =>
              have hnumber : Allows s t piece ↔ piece ≠ [] ∧ Number.isSpelled piece := by
                constructor
                · intro h
                  cases h with
                  | anything hopen =>
                      rcases hopen with hopen | hopen <;> cases hnode.symm.trans hopen
                  | numeral _ hne hspelled => exact ⟨hne, hspelled⟩
                  | listed htexts => cases htexts.symm.trans (literalTexts_of_number hnode)
                  | member hunion => cases hnode.symm.trans hunion
                · exact fun h => .numeral hnode h.1 h.2
              simp [hnumber]
          | _ => simp [hnode, Node.isFiller] at hn
      | literal v =>
          cases v with
          | string text =>
              rw [hlisted [text] (by simp [literalTexts, literalTextsAt, hnode])]
              simp
          | _ => simp [hnode, Node.isFiller] at hn
      | _ => simp [hnode, Node.isFiller] at hn
  | @union t ms ht hn hform hms ih =>
      rw [holeAccepts_union hs ht hn, allows_union_iff hs ht hn, List.any_eq_true]
      exact exists_congr fun m => and_congr_right (ih m)

theorem allows_iff_of_extends (hs' : s'.Formed) (h : s.Extends s') (ht : Fillable s t) :
    Allows s' t piece ↔ Allows s t piece := by
  have hclosed : s.Closed Store.AnyName t := hs.closed_of_known ht.known
  rw [← holeAccepts_iff hs ht, ← holeAccepts_iff hs' (ht.mono h), holeAccepts,
    holeAcceptsAt_eq h hclosed]
  rfl

/-- A template that is kept describes what its holes allow. -/
theorem describes_iff (hholes : ∀ t, .hole t ∈ spans → Fillable s t) :
    describes s spans text ↔ Spells (Allows s) spans text.toList := by
  unfold describes
  rw [matchSpans_iff]
  exact Spells.congr fun t ht piece => holeAccepts_iff hs (hholes t ht)

end tables

/-- The texts that spans spell after one of the given ones; none if the texts of a hole are not
listed or there are too many of them. -/
def spellings (s : Store) : List Span → Option (List String) → Option (List String)
  | [], starts => starts
  | .text a :: rest, starts => spellings s rest (starts.map (·.map (· ++ a)))
  | .hole t :: rest, starts => spellings s rest (Eval.spell starts (literalTexts s t))

theorem spellings_none : spellings s spans none = none := by
  induction spans with
  | nil => rfl
  | cons span rest ih => cases span <;> exact ih

theorem mem_spell {ends : List String} (h : Eval.spell (some starts) (some ends) = some texts) :
    text ∈ texts ↔ ∃ start ∈ starts, ∃ stop ∈ ends, start ++ stop = text := by
  change (if starts.length * ends.length ≤ Limits.distributionSize then
    some (starts.flatMap fun a => ends.map (a ++ ·)) else none) = some texts at h
  split at h
  · cases h
    simp
  · cases h

section spellings

variable (hs : s.Formed)

include hs

/-- A template whose texts are listed spells what its holes allow. -/
theorem mem_spellings (hholes : ∀ t, .hole t ∈ spans → Fillable s t)
    (h : spellings s spans (some starts) = some texts) :
    text ∈ texts ↔
      ∃ start ∈ starts, ∃ tail, Spells (Allows s) spans tail ∧
        text.toList = start.toList ++ tail := by
  induction spans generalizing starts with
  | nil =>
      obtain rfl : starts = texts := Option.some.inj h
      simp [Spells.nil_iff, String.toList_inj]
  | cons span rest ih =>
      have hrest : ∀ t, .hole t ∈ rest → Fillable s t := fun t ht =>
        hholes t (List.mem_cons_of_mem _ ht)
      cases span with
      | text a =>
          rw [ih hrest h]
          constructor
          · rintro ⟨_, hmem, tail, htail, htext⟩
            obtain ⟨start, hstart, rfl⟩ := List.mem_map.mp hmem
            exact ⟨start, hstart, _, .text htail, by simp [htext]⟩
          · rintro ⟨start, hstart, _, hspells, htext⟩
            obtain ⟨tail, rfl, htail⟩ := Spells.text_iff.mp hspells
            exact ⟨start ++ a, List.mem_map_of_mem hstart, tail, htail, by simp [htext]⟩
      | hole t =>
          have ht := hholes t (List.mem_cons_self ..)
          simp only [spellings] at h
          cases hends : literalTexts s t with
          | none =>
              rw [hends] at h
              cases h.symm.trans spellings_none
          | some ends =>
              rw [hends] at h
              cases hspell : Eval.spell (some starts) (some ends) with
              | none =>
                  rw [hspell] at h
                  cases h.symm.trans spellings_none
              | some more =>
                  rw [hspell] at h
                  rw [ih hrest h]
                  constructor
                  · rintro ⟨_, hmem, tail, htail, htext⟩
                    obtain ⟨start, hstart, stop, hstop, rfl⟩ := (mem_spell hspell).mp hmem
                    exact ⟨start, hstart, _, .hole (.listed hends hstop) htail, by simp [htext]⟩
                  · rintro ⟨start, hstart, _, hspells, htext⟩
                    obtain ⟨piece, tail, rfl, hpiece, htail⟩ := Spells.hole_iff.mp hspells
                    obtain ⟨stop, hstop, rfl⟩ := (allows_listed hs ht hends).mp hpiece
                    exact ⟨start ++ stop, (mem_spell hspell).mpr ⟨start, hstart, stop, hstop, rfl⟩,
                      tail, htail, by simp [htext]⟩

end spellings

theorem literalTexts_eq (hs : s.Formed) (h : s.Extends s') (ht : t.index < s.size) :
    literalTexts s' t = literalTexts s t := by
  have hclosed : s.Closed Store.AnyName t := hs.closed_of_known ht
  exact literalTextsAt_eq h hclosed

end Template

end TypeResolution

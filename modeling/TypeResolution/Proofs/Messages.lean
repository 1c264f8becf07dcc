import TypeResolution.Diagnostic

/-!
Messages with their holes filled. The arguments are put in one after the other, and what an argument
brings along is searched for the holes of the later ones. A text is closed if it neither holds a
hole nor begins one that the text behind it could complete. Holes between closed texts are filled as
if all were filled at once, unless an argument that is not closed is followed by another one.
-/

namespace TypeResolution

namespace Message

open Text

/-- Every opening brace in a text is followed there by a character that is not a digit. -/
def closed : List Char → Bool
  | [] => true
  | c :: rest => (c ≠ '\x7b' || rest.head?.any fun d => !d.isDigit) && closed rest

/-- A part of a template. -/
inductive Piece where
  | text (t : String)
  | hole (i : Nat)
  deriving DecidableEq, Repr

namespace Piece

def spelling : Piece → String
  | text t => t
  | hole i => Message.hole i

def closed : Piece → Bool
  | text t => Message.closed t.toList
  | hole _ => true

/-- The part with the hole `i` filled. -/
def put (i : Nat) (arg : String) : Piece → Piece
  | text t => text t
  | hole j => if j = i then text arg else hole j

/-- The part with the holes from `i` on filled one after the other. -/
def putFrom (i : Nat) : List String → Piece → Piece
  | [], p => p
  | arg :: rest, p => putFrom (i + 1) rest (p.put i arg)

/-- The part in the message. Holes without an argument stay. -/
def filled (args : List String) : Piece → String
  | text t => t
  | hole i => args[i]?.getD (Message.hole i)

end Piece

/-- The template of the parts. -/
def write (pieces : List Piece) : String := String.join (pieces.map Piece.spelling)

section replacing

variable {i j : Nat} {old new text rest : List Char}

theorem replaceFrom_eq_drop (skip : Nat) :
    replaceFrom old new skip text = replaceFrom old new 0 (text.drop skip) := by
  induction text generalizing skip with
  | nil => cases skip <;> rfl
  | cons c text ih =>
      cases skip with
      | zero => rfl
      | succ skip => exact ih skip

/-- An occurrence is replaced as a whole. -/
theorem replaceFrom_append (hne : old ≠ []) :
    replaceFrom old new 0 (old ++ rest) = new ++ replaceFrom old new 0 rest := by
  obtain ⟨c, cs, rfl⟩ := List.exists_cons_of_ne_nil hne
  have hprefix : (c :: cs).isPrefixOf (c :: (cs ++ rest)) = true :=
    List.isPrefixOf_iff_prefix.mpr ⟨rest, rfl⟩
  rw [List.cons_append, replaceFrom, if_pos hprefix, replaceFrom_eq_drop]
  simp

theorem toList_hole (i : Nat) : (hole i).toList = '\x7b' :: (Nat.toDigits 10 i ++ ['\x7d']) := by
  simp [hole, Nat.repr_eq_ofList_toDigits]

theorem isDigit_of_mem {c : Char} (h : c ∈ Nat.toDigits 10 i) : c.isDigit :=
  Nat.isDigit_of_mem_toDigits (by decide) (Nat.le_refl 10) h

/-- A hole starts with a brace and a digit. -/
theorem exists_hole (i : Nat) : ∃ d ds, d.isDigit ∧ (hole i).toList = '\x7b' :: d :: ds := by
  obtain ⟨d, ds, hdigits⟩ := List.exists_cons_of_ne_nil (Nat.toDigits_ne_nil (n := i) (b := 10))
  have hd : d ∈ Nat.toDigits 10 i := hdigits ▸ List.mem_cons_self
  exact ⟨d, ds ++ ['\x7d'], isDigit_of_mem hd, by rw [toList_hole, hdigits, List.cons_append]⟩

/-- No hole starts in a closed text. -/
theorem replaceFrom_closed (h : closed text) :
    replaceFrom (hole i).toList new 0 (text ++ rest) =
      text ++ replaceFrom (hole i).toList new 0 rest := by
  obtain ⟨d, ds, hd, hhole⟩ := exists_hole i
  induction text with
  | nil => rfl
  | cons c text ih =>
      obtain ⟨hhead, htail⟩ := (Bool.and_eq_true _ _).mp h
      have hno : (hole i).toList.isPrefixOf (c :: (text ++ rest)) = false := by
        rw [hhole]
        by_cases hc : c = '\x7b'
        · cases text with
          | nil => simp [hc] at hhead
          | cons e text =>
              have he : e.isDigit = false := by simpa [hc] using hhead
              have hne : d ≠ e := by
                rintro rfl
                rw [hd] at he
                exact Bool.noConfusion he
              simp [List.isPrefixOf, hne]
        · simp [List.isPrefixOf, Ne.symm hc]
      rw [List.cons_append, replaceFrom, if_neg (by simp [hno]), ih htail, List.cons_append]

theorem closed_of_not_mem (h : '\x7b' ∉ text) : closed text := by
  induction text with
  | nil => rfl
  | cons c text ih =>
      simp only [List.mem_cons, not_or] at h
      simp [closed, Ne.symm h.1, ih h.2]

/-- A hole is in front of a text only if it is the one that the text starts with. -/
theorem eq_of_isPrefixOf (h : (hole i).toList.isPrefixOf ((hole j).toList ++ rest)) : i = j := by
  obtain ⟨t, ht⟩ := List.isPrefixOf_iff_prefix.mp h
  simp only [toList_hole, List.cons_append, List.append_assoc, List.nil_append,
    List.cons.injEq, true_and] at ht
  -- the digits end at the closing brace
  have hdigits := congrArg (List.takeWhile Char.isDigit) ht
  rw [List.takeWhile_append_of_pos fun _ => isDigit_of_mem,
    List.takeWhile_append_of_pos fun _ => isDigit_of_mem] at hdigits
  have heq : Nat.toDigits 10 i = Nat.toDigits 10 j := by simpa using hdigits
  rw [← Nat.ofDigitChars_ten_toDigits (n := i), heq, Nat.ofDigitChars_ten_toDigits]

theorem replaceFrom_hole : replaceFrom (hole i).toList new 0 ((hole j).toList ++ rest) =
    (if j = i then new else (hole j).toList) ++ replaceFrom (hole i).toList new 0 rest := by
  by_cases heq : j = i
  · subst heq
    rw [if_pos rfl, replaceFrom_append (by simp [toList_hole])]
  · have hno : ¬(hole i).toList.isPrefixOf ((hole j).toList ++ rest) := fun h =>
      heq (eq_of_isPrefixOf h).symm
    -- the brace is passed over, and no brace follows in the hole
    have hbehind : closed (Nat.toDigits 10 j ++ ['\x7d']) := by
      refine closed_of_not_mem fun hmem => ?_
      rcases List.mem_append.mp hmem with hmem | hmem
      · exact absurd (isDigit_of_mem hmem) (by decide)
      · simp at hmem
    rw [if_neg heq]
    rw [toList_hole j, List.cons_append] at hno ⊢
    rw [replaceFrom, if_neg hno, replaceFrom_closed hbehind, List.cons_append]

end replacing

section filling

variable {pieces : List Piece} {i : Nat} {arg : String}

theorem replaceAll_write (h : ∀ p ∈ pieces, p.closed) :
    replaceAll (hole i) arg (write pieces) = write (pieces.map (Piece.put i arg)) := by
  refine String.toList_inj.mp ?_
  rw [replaceAll, String.toList_ofList, write, write, String.toList_join, String.toList_join]
  simp only [List.flatMap_map, List.map_map]
  induction pieces with
  | nil => rfl
  | cons p rest ih =>
      have hrest := ih fun q hq => h q (List.mem_cons_of_mem _ hq)
      cases p with
      | text t =>
          have ht : closed t.toList := h _ List.mem_cons_self
          rw [List.flatMap_cons, List.flatMap_cons, ← hrest]
          exact replaceFrom_closed ht
      | hole j =>
          rw [List.flatMap_cons, List.flatMap_cons, ← hrest]
          refine replaceFrom_hole.trans ?_
          by_cases heq : j = i
          · simp [Piece.put, Piece.spelling, heq]
          · simp [Piece.put, Piece.spelling, heq]

theorem Piece.closed_put (harg : Message.closed arg.toList) {p : Piece} (h : p.closed) :
    (p.put i arg).closed := by
  cases p with
  | text t => exact h
  | hole j =>
      rw [put]
      split
      · exact harg
      · rfl

theorem fillFrom_write {args : List String} (h : ∀ p ∈ pieces, p.closed)
    (hargs : ∀ arg ∈ args.dropLast, closed arg.toList) :
    fillFrom i (write pieces) args = write (pieces.map (Piece.putFrom i args)) := by
  induction args generalizing i pieces with
  | nil => simp [fillFrom, Piece.putFrom]
  | cons arg rest ih =>
      rw [fillFrom, replaceAll_write h]
      cases rest with
      | nil => rfl
      | cons next rest =>
          have harg : closed arg.toList := hargs arg List.mem_cons_self
          have hput : ∀ p ∈ pieces.map (Piece.put i arg), p.closed := by
            intro p hp
            obtain ⟨q, hq, rfl⟩ := List.mem_map.mp hp
            exact Piece.closed_put harg (h q hq)
          rw [ih hput fun a ha => hargs a (List.mem_cons_of_mem _ ha), List.map_map]
          rfl

theorem Piece.putFrom_text (args : List String) (t : String) :
    (text t).putFrom i args = text t := by
  induction args generalizing i with
  | nil => rfl
  | cons arg rest ih => exact ih

/-- What is put in one after the other fills each hole with its own argument. -/
theorem Piece.putFrom_hole (args : List String) (j : Nat) :
    (hole (i + j)).putFrom i args = (args[j]?.map text).getD (hole (i + j)) := by
  induction args generalizing i j with
  | nil => rfl
  | cons arg rest ih =>
      cases j with
      | zero => simp [putFrom, put, putFrom_text]
      | succ j =>
          have hne : i + (j + 1) ≠ i := by omega
          have hnext := ih (i := i + 1) j
          rw [putFrom, put, if_neg hne]
          rwa [Nat.add_assoc, Nat.add_comm 1 j] at hnext

theorem Piece.spelling_putFrom (args : List String) (p : Piece) :
    (p.putFrom 0 args).spelling = p.filled args := by
  cases p with
  | text t => rw [putFrom_text]; rfl
  | hole j =>
      have hput := putFrom_hole (i := 0) args j
      rw [Nat.zero_add] at hput
      rw [hput, filled]
      cases args[j]? <;> rfl

/-- The holes between closed texts are filled as if all were filled at once: the texts and what the
arguments bring along stay as they are. The last argument may be any text. -/
theorem fill_write {args : List String} (h : ∀ p ∈ pieces, p.closed)
    (hargs : ∀ arg ∈ args.dropLast, closed arg.toList) :
    fill (write pieces) args = String.join (pieces.map (Piece.filled args)) := by
  rw [fill, fillFrom_write h hargs, write, List.map_map]
  refine congrArg String.join (List.map_congr_left fun p _ => ?_)
  exact Piece.spelling_putFrom args p

-- the first argument brings a hole along, which the second one fills
example : fill "\x7b0\x7d, \x7b1\x7d" ["\x7b1\x7d", "x"] = "x, x" := by decide +kernel

end filling

end Message

open Message

/-- The template of a kind in parts. -/
def DiagnosticKind.pieces : DiagnosticKind → List Piece
  | .unresolvedReference => [.text "Cannot find type '", .hole 0, .text "'."]
  | .incompatibleIntersection =>
      [.text "Property '", .hole 0, .text "' has conflicting types '", .hole 1, .text "' and '",
        .hole 2, .text "' in intersection and was reduced to 'never'."]
  | .cyclicTypeAlias => [.text "Type alias '", .hole 0, .text "' circularly references itself."]
  | .evaluationDepthExceeded =>
      [.text "Type instantiation is excessively deep and possibly infinite (limit ", .hole 0,
        .text ")."]
  | .inferenceConflict =>
      [.text "Type parameter '", .hole 0, .text "' has conflicting candidates '", .hole 1,
        .text "' and '", .hole 2, .text "'."]
  | .keyRemapCollision =>
      [.text "Keys '", .hole 0, .text "' and '", .hole 1, .text "' are both remapped to '", .hole 2,
        .text "'."]
  | .narrowingAmbiguous =>
      [.text "Cannot exclude '", .hole 0, .text "' from '", .hole 1,
        .text "'; the type was left unnarrowed."]
  | .cyclicModuleDependency =>
      [.text "Module '", .hole 0, .text "' is part of an import cycle: ", .hole 1, .text "."]
  | .notAssignable =>
      [.text "Type '", .hole 0, .text "' is not assignable to type '", .hole 1, .text "'."]

theorem DiagnosticKind.template_eq (kind : DiagnosticKind) :
    kind.template = write kind.pieces := by
  cases kind <;> decide +kernel

theorem DiagnosticKind.closed_pieces (kind : DiagnosticKind) : ∀ p ∈ kind.pieces, p.closed := by
  cases kind <;> decide +kernel

/-- The message of a diagnostic has its arguments in the holes and is else as the template has it.
Only an argument with another one behind it has to be closed. -/
theorem Diagnostic.message_of (kind : DiagnosticKind) {args : List String}
    (hargs : ∀ arg ∈ args.dropLast, closed arg.toList) :
    (Diagnostic.of kind args).message = String.join (kind.pieces.map (Piece.filled args)) := by
  rw [Diagnostic.of, kind.template_eq]
  exact fill_write kind.closed_pieces hargs

end TypeResolution

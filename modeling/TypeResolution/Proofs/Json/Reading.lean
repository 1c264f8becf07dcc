import TypeResolution.Json.Writer
import TypeResolution.Proofs.Json.Numerals

/-!
A text that is written for a value reads back as that value.
-/

namespace TypeResolution.Json

/-- Induction over a value: its items and the values of its entries come first. -/
theorem induct {motive : Json → Prop} (null : motive .null) (bool : ∀ b, motive (.bool b))
    (number : ∀ n, motive (.number n)) (string : ∀ t, motive (.string t))
    (array : ∀ items, (∀ v ∈ items, motive v) → motive (.array items))
    (object : ∀ es, (∀ e ∈ es, motive e.2) → motive (.object es)) (j : Json) : motive j :=
  @Json.rec motive (fun items => ∀ v ∈ items, motive v) (fun es => ∀ e ∈ es, motive e.2)
    (fun e => motive e.2) null bool number string array object
    (by simp) (fun _ _ hv hvs => List.forall_mem_cons.mpr ⟨hv, hvs⟩)
    (by simp) (fun _ _ he hes => List.forall_mem_cons.mpr ⟨he, hes⟩) (fun _ _ hv => hv) j

mutual

/-- The parts of a value that are no arrays and objects, and the keys. -/
def leaves : Json → List Json
  | .null => [.null]
  | .bool b => [.bool b]
  | .number n => [.number n]
  | .string t => [.string t]
  | .array items => itemLeaves items
  | .object entries => entryLeaves entries

def itemLeaves : List Json → List Json
  | [] => []
  | v :: rest => leaves v ++ itemLeaves rest

def entryLeaves : List (JsonText × Json) → List Json
  | [] => []
  | (key, v) :: rest => .string key :: (leaves v ++ entryLeaves rest)

end

theorem itemLeaves_eq (items : List Json) : itemLeaves items = items.flatMap leaves := by
  induction items with
  | nil => rfl
  | cons v rest ih => rw [itemLeaves, ih, List.flatMap_cons]

theorem entryLeaves_eq (es : List (JsonText × Json)) :
    entryLeaves es = es.flatMap fun e => .string e.1 :: leaves e.2 := by
  induction es with
  | nil => rfl
  | cons e rest ih => rw [entryLeaves, ih, List.flatMap_cons, List.cons_append]

mutual

/-- The characters that are written for a value. -/
def chars : Json → List Char
  | .null => "null".toList
  | .bool b => (if b then "true" else "false").toList
  | .number n => (Writer.number "" n).toList
  | .string t => (Writer.text "" t).toList
  | .array items => '[' :: itemChars items ++ [']']
  | .object entries => '\x7b' :: entryChars entries ++ ['\x7d']

def itemChars : List Json → List Char
  | [] => []
  | v :: rest => chars v ++ laterItemChars rest

def laterItemChars : List Json → List Char
  | [] => []
  | v :: rest => ',' :: chars v ++ laterItemChars rest

def entryChars : List (JsonText × Json) → List Char
  | [] => []
  | entry :: rest => keyedChars entry ++ laterEntryChars rest

def laterEntryChars : List (JsonText × Json) → List Char
  | [] => []
  | entry :: rest => ',' :: keyedChars entry ++ laterEntryChars rest

def keyedChars : JsonText × Json → List Char
  | (key, v) => (Writer.text "" key).toList ++ ':' :: chars v

end

namespace Writer

theorem toList_push (cs : List Char) (out : String) :
    (push out cs).toList = out.toList ++ cs := by
  induction cs generalizing out with
  | nil => simp [push]
  | cons c rest ih =>
      have hrest := ih (out.push c)
      simp only [push, List.foldl_cons] at hrest ⊢
      rw [hrest, String.toList_push, List.append_assoc, List.singleton_append]

theorem toList_quote (out t : String) :
    (quote out t).toList = out.toList ++ '"' :: (t.toList.flatMap escape ++ ['"']) := by
  have hfold : ∀ (cs : List Char) (out : String),
      (cs.foldl (fun out c => push out (escape c)) out).toList = out.toList ++ cs.flatMap escape := by
    intro cs
    induction cs with
    | nil => simp
    | cons c rest ih =>
        intro out
        rw [List.foldl_cons, ih, toList_push, List.flatMap_cons, List.append_assoc]
  rw [quote, String.foldl_eq_foldl_toList, String.toList_push, hfold, String.toList_push]
  simp

theorem toList_text (out : String) (t : JsonText) :
    (text out t).toList = out.toList ++ (text "" t).toList := by
  cases t with
  | none => simp [text]
  | some t => simp [text, toList_quote]

theorem toList_number (out : String) (n : JsonNumber) :
    (number out n).toList = out.toList ++ (number "" n).toList := by
  cases n with
  | integer negative magnitude => cases negative <;> simp [number]
  | real x =>
      cases x with
      | none => simp [number]
      | some x =>
          simp only [number]
          split
          · simp
          · split
            · split <;> simp
            · split <;> simp

mutual

theorem toList_value (out : String) : (j : Json) → (value out j).toList = out.toList ++ chars j
  | .null => by simp [value, chars]
  | .bool b => by simp [value, chars]
  | .number n => toList_number out n
  | .string t => toList_text out t
  | .array items => by
      have hitems := toList_items (out.push '[') items
      simp [value, chars, hitems]
  | .object entries => by
      have hentries := toList_entries (out.push '\x7b') entries
      simp [value, chars, hentries]

theorem toList_items (out : String) :
    (items : List Json) → (values out true items).toList = out.toList ++ itemChars items
  | [] => by simp [values, itemChars]
  | v :: rest => by
      have hrest := toList_laterItems (value out v) rest
      have hv := toList_value out v
      simp [values, itemChars, hrest, hv]

theorem toList_laterItems (out : String) :
    (items : List Json) → (values out false items).toList = out.toList ++ laterItemChars items
  | [] => by simp [values, laterItemChars]
  | v :: rest => by
      have hrest := toList_laterItems (value (out.push ',') v) rest
      have hv := toList_value (out.push ',') v
      simp [values, laterItemChars, hrest, hv]

theorem toList_entries (out : String) :
    (es : List (JsonText × Json)) → (entries out true es).toList = out.toList ++ entryChars es
  | [] => by simp [entries, entryChars]
  | entry :: rest => by
      have hrest := toList_laterEntries (keyed out entry) rest
      have hentry := toList_keyed out entry
      simp [entries, entryChars, hrest, hentry]

theorem toList_laterEntries (out : String) : (es : List (JsonText × Json)) →
    (entries out false es).toList = out.toList ++ laterEntryChars es
  | [] => by simp [entries, laterEntryChars]
  | entry :: rest => by
      have hrest := toList_laterEntries (keyed (out.push ',') entry) rest
      have hentry := toList_keyed (out.push ',') entry
      simp [entries, laterEntryChars, hrest, hentry]

theorem toList_keyed (out : String) :
    (entry : JsonText × Json) → (keyed out entry).toList = out.toList ++ keyedChars entry
  | (key, v) => by
      have hv := toList_value ((text out key).push ':') v
      have hkey := toList_text out key
      simp [keyed, keyedChars, hv, hkey]

end

end Writer

theorem toList_toText (j : Json) : j.toText.toList = chars j := by
  simp [toText, Writer.toList_value]

namespace Reader

theorem hexDigit?_hexDigit : ∀ d < 16, hexDigit? (Writer.hexDigit d) = some d := by
  decide

theorem unit?_controlEscape (c : Char) (h : c.toNat < 0x20) (rest : List Char) :
    unit? ('0' :: '0' :: Writer.hexDigit (c.toNat / 16) :: Writer.hexDigit (c.toNat % 16) :: rest) =
      some (c.toNat, rest) := by
  have hzero : hexDigit? '0' = some 0 := by decide
  have hhigh := hexDigit?_hexDigit (c.toNat / 16) (by omega)
  have hlow := hexDigit?_hexDigit (c.toNat % 16) (by omega)
  have hsplit : 16 * (c.toNat / 16) + c.toNat % 16 = c.toNat := Nat.div_add_mod ..
  simp [unit?, hzero, hhigh, hlow, hsplit]

theorem pairUnits_control (c : Char) (h : c.toNat < 0x20) (rest : List Char) :
    pairUnits c.toNat rest = some (some c, rest) := by
  have hhigh : isHighUnit c.toNat = false := by simp [isHighUnit]; omega
  have hlow : isLowUnit c.toNat = false := by simp [isLowUnit]; omega
  simp [pairUnits, hhigh, hlow, Char.ofNat_toNat]

theorem textFrom_escape (c : Char) (fuel : Nat) (done rest : List Char) :
    textFrom (fuel + 1) (some done) (Writer.escape c ++ rest) =
      textFrom fuel (some (c :: done)) rest := by
  unfold Writer.escape
  split
  · simp [textFrom, simpleEscape?]
  · simp [textFrom, simpleEscape?]
  · simp [textFrom, simpleEscape?]
  · simp [textFrom, simpleEscape?]
  · simp [textFrom, simpleEscape?]
  · simp [textFrom, simpleEscape?]
  · simp [textFrom, simpleEscape?]
  · rename_i hquote hslash _ _ _ _ _
    have hquote' : ¬ c = '"' := hquote
    have hslash' : ¬ c = '\\' := hslash
    split
    · rename_i hcontrol
      simp [Writer.controlEscape, textFrom, unit?_controlEscape c hcontrol,
        pairUnits_control c hcontrol]
    · rename_i hcontrol
      simp only [List.cons_append, List.nil_append, textFrom, if_neg hquote', if_neg hslash',
        if_neg hcontrol, Option.map_some]

theorem textFrom_escaped (s : List Char) (fuel : Nat) (done rest : List Char)
    (hfuel : s.length < fuel) :
    textFrom fuel (some done) (s.flatMap Writer.escape ++ '"' :: rest) =
      some (some (String.ofList (done.reverse ++ s)), rest) := by
  induction s generalizing fuel done with
  | nil =>
      obtain ⟨fuel, rfl⟩ : ∃ k, fuel = k + 1 := ⟨fuel - 1, by simp at hfuel; omega⟩
      simp [textFrom]
  | cons c s ih =>
      simp only [List.length_cons] at hfuel
      obtain ⟨fuel, rfl⟩ : ∃ k, fuel = k + 1 := ⟨fuel - 1, by omega⟩
      rw [List.flatMap_cons, List.append_assoc, textFrom_escape, ih fuel (c :: done) (by omega)]
      simp

theorem length_escape_pos (c : Char) : 0 < (Writer.escape c).length := by
  unfold Writer.escape
  split
  any_goals decide
  split <;> simp [Writer.controlEscape]

theorem text_quoted (t : String) (rest : List Char) :
    text (t.toList.flatMap Writer.escape ++ '"' :: rest) = some (some t, rest) := by
  have hlength : t.toList.length ≤ (t.toList.flatMap Writer.escape).length := by
    induction t.toList with
    | nil => simp
    | cons c cs ih =>
        have hc := length_escape_pos c
        simp only [List.flatMap_cons, List.length_append, List.length_cons]
        omega
  rw [text, textFrom_escaped]
  · simp
  · simp only [List.length_append, List.length_cons]
    omega

theorem skipSpace_cons {c : Char} (h : isSpace c = false) (cs : List Char) :
    skipSpace (c :: cs) = c :: cs := by
  simp [skipSpace, h]

theorem word?_append (w : String) (v : Json) (rest : List Char) :
    word? w v (w.toList ++ rest) = some (v, rest) := by
  have hword : w.toList.isPrefixOf (w.toList ++ rest) :=
    List.isPrefixOf_iff_prefix.mpr (List.prefix_append _ _)
  rw [word?, if_pos hword, ← String.length_toList, List.drop_left]

/-- What a number starts with starts nothing else. -/
theorem value_number {fuel : Nat} {c : Char} {cs rest : List Char} {n : JsonNumber}
    (h : number (c :: cs) = some (n, rest)) :
    value (fuel + 1) (c :: cs) = some (.number n, rest) := by
  have hc := head_of_number h
  unfold value
  split
  any_goals simp at hc
  simp [h]

/-- What a value starts with neither is blank nor ends an array. -/
theorem head_of_value {fuel : Nat} {c : Char} {cs : List Char} {r : Json × List Char}
    (h : value fuel (c :: cs) = some r) : isSpace c = false ∧ c ≠ ']' := by
  cases fuel with
  | zero => simp [value] at h
  | succ fuel =>
      unfold value at h
      split at h
      any_goals decide
      obtain ⟨⟨n, rest⟩, hnumber, -⟩ := Option.bind_eq_some_iff.mp h
      rcases head_of_number hnumber with rfl | hdigit
      · decide
      · have hspace : ¬ isSpace c := by
          intro hspace
          simp only [isSpace, Bool.or_eq_true, decide_eq_true_eq] at hspace
          rcases hspace with ((rfl | rfl) | rfl) | rfl <;> simp at hdigit
        have hend : c ≠ ']' := by
          rintro rfl
          simp at hdigit
        exact ⟨by simpa using hspace, hend⟩

/-- The value is read off the characters that are written for it. -/
def ReadsOff (j : Json) : Prop :=
  ∀ fuel rest, (chars j).length ≤ fuel → EndsNumber rest →
    value fuel (chars j ++ rest) = some (j, rest)

theorem endsNumber_cons {c : Char} {cs : List Char}
    (h : c.isDigit = false ∧ c ≠ '.' ∧ c ≠ 'e' ∧ c ≠ 'E') : EndsNumber (c :: cs) := by
  intro d hd
  cases hd
  exact h

theorem ReadsOff.chars_eq_cons {j : Json} (h : ReadsOff j) :
    ∃ c cs, chars j = c :: cs ∧ isSpace c = false ∧ c ≠ ']' := by
  have hread := h (chars j).length [] (Nat.le_refl _) (by simp [EndsNumber])
  rw [List.append_nil] at hread
  generalize chars j = cs at hread
  cases cs with
  | nil => simp [value] at hread
  | cons c cs => exact ⟨c, cs, rfl, head_of_value hread⟩

theorem ReadsOff.skipSpace {j : Json} (h : ReadsOff j) (rest : List Char) :
    skipSpace (chars j ++ rest) = chars j ++ rest := by
  obtain ⟨c, cs, hcs, hspace, -⟩ := h.chars_eq_cons
  rw [hcs, List.cons_append, skipSpace_cons hspace]

theorem items_chars (v : Json) (vs done : List Json) (fuel : Nat) (rest : List Char)
    (h : ∀ w ∈ v :: vs, ReadsOff w) (hfuel : (itemChars (v :: vs)).length < fuel) :
    items fuel done (itemChars (v :: vs) ++ ']' :: rest) =
      some (.array (done.reverse ++ v :: vs), rest) := by
  induction vs generalizing v done fuel with
  | nil =>
      obtain ⟨fuel, rfl⟩ : ∃ k, fuel = k + 1 := ⟨fuel - 1, by omega⟩
      simp only [itemChars, laterItemChars, List.append_nil] at hfuel ⊢
      have hv := h v (by simp) fuel (']' :: rest) (by omega) (endsNumber_cons (by decide))
      simp [items, hv, skipSpace_cons (show isSpace ']' = false by decide)]
  | cons w ws ih =>
      obtain ⟨fuel, rfl⟩ : ∃ k, fuel = k + 1 := ⟨fuel - 1, by omega⟩
      have hchars : itemChars (v :: w :: ws) = chars v ++ ',' :: itemChars (w :: ws) := rfl
      rw [hchars] at hfuel ⊢
      simp only [List.length_append, List.length_cons] at hfuel
      have hv := h v (by simp) fuel (',' :: (itemChars (w :: ws) ++ ']' :: rest)) (by omega)
        (endsNumber_cons (by decide))
      have hskip : skipSpace (itemChars (w :: ws) ++ ']' :: rest) =
          itemChars (w :: ws) ++ ']' :: rest := by
        simpa [itemChars] using (h w (by simp)).skipSpace (laterItemChars ws ++ ']' :: rest)
      have hrest := ih w (v :: done) fuel (fun u hu => h u (List.mem_cons_of_mem v hu)) (by omega)
      simp [items, hv, skipSpace_cons (show isSpace ',' = false by decide), hskip, hrest]

theorem value_array {items : List Json} (h : ∀ v ∈ items, ReadsOff v) : ReadsOff (.array items) := by
  intro fuel rest hfuel hrest
  cases items with
  | nil =>
      obtain ⟨fuel, rfl⟩ : ∃ k, fuel = k + 1 := ⟨fuel - 1, by simp [chars] at hfuel; omega⟩
      simp [chars, itemChars, value, skipSpace_cons (show isSpace ']' = false by decide)]
  | cons v vs =>
      have hchars : chars (.array (v :: vs)) = '[' :: (itemChars (v :: vs) ++ [']']) := rfl
      simp only [hchars, List.length_cons, List.length_append, List.length_nil] at hfuel ⊢
      obtain ⟨fuel, rfl⟩ : ∃ k, fuel = k + 1 := ⟨fuel - 1, by omega⟩
      have hitems := items_chars v vs [] fuel rest h (by omega)
      obtain ⟨c, cs, hcs, hspace, hend⟩ := (h v (by simp)).chars_eq_cons
      have hhead : itemChars (v :: vs) = c :: (cs ++ laterItemChars vs) := by
        simp [itemChars, hcs]
      rw [hhead] at hitems ⊢
      simp only [List.cons_append, List.append_assoc, List.nil_append] at hitems ⊢
      simp [value, skipSpace_cons hspace, hend, hitems]

theorem toList_text_some (t : String) (rest : List Char) :
    (Writer.text "" (some t)).toList ++ rest =
      '"' :: (t.toList.flatMap Writer.escape ++ '"' :: rest) := by
  simp [Writer.text, Writer.toList_quote]

/-- The key of an entry, then its value. -/
theorem keyed_chars {e : JsonText × Json} (hkey : e.1.isSome) (hv : ReadsOff e.2)
    (done : List (JsonText × Json)) {fuel : Nat} {c : Char} (rest : List Char)
    (hc : c = ',' ∨ c = '\x7d') (hfuel : (keyedChars e).length ≤ fuel) :
    entries (fuel + 1) done (keyedChars e ++ c :: rest) =
      if c = ',' then entries fuel (e :: done) (skipSpace rest)
      else some (.object (e :: done).reverse, rest) := by
  obtain ⟨key, v⟩ := e
  obtain ⟨key, rfl⟩ := Option.isSome_iff_exists.mp hkey
  have hends : EndsNumber (c :: rest) := by
    rcases hc with rfl | rfl
    · exact endsNumber_cons (by decide)
    · exact endsNumber_cons (by decide)
  have hspace : isSpace c = false := by rcases hc with rfl | rfl <;> decide
  simp only [keyedChars, List.length_append, List.length_cons] at hfuel
  have hread := hv fuel (c :: rest) (by dsimp only; omega) hends
  rw [keyedChars, List.append_assoc, toList_text_some, entries, text_quoted]
  simp only [Option.bind_eq_bind, Option.bind_some, List.cons_append,
    skipSpace_cons (show isSpace ':' = false by decide), hv.skipSpace, hread,
    skipSpace_cons hspace]
  rcases hc with rfl | rfl <;> rfl

theorem skipSpace_keyedChars {e : JsonText × Json} (hkey : e.1.isSome) (rest : List Char) :
    skipSpace (keyedChars e ++ rest) = keyedChars e ++ rest := by
  obtain ⟨key, v⟩ := e
  obtain ⟨key, rfl⟩ := Option.isSome_iff_exists.mp hkey
  rw [keyedChars, List.append_assoc, toList_text_some, skipSpace_cons (by decide)]

theorem entries_chars (e : JsonText × Json) (es done : List (JsonText × Json)) (fuel : Nat)
    (rest : List Char) (h : ∀ d ∈ e :: es, d.1.isSome ∧ ReadsOff d.2)
    (hfuel : (entryChars (e :: es)).length < fuel) :
    entries fuel done (entryChars (e :: es) ++ '\x7d' :: rest) =
      some (.object (done.reverse ++ e :: es), rest) := by
  induction es generalizing e done fuel with
  | nil =>
      obtain ⟨fuel, rfl⟩ : ∃ k, fuel = k + 1 := ⟨fuel - 1, by omega⟩
      obtain ⟨hkey, hv⟩ := h e (by simp)
      simp only [entryChars, laterEntryChars, List.append_nil] at hfuel ⊢
      rw [keyed_chars hkey hv done rest (.inr rfl) (by omega)]
      simp
  | cons d es ih =>
      obtain ⟨fuel, rfl⟩ : ∃ k, fuel = k + 1 := ⟨fuel - 1, by omega⟩
      obtain ⟨hkey, hv⟩ := h e (by simp)
      have hchars : entryChars (e :: d :: es) = keyedChars e ++ ',' :: entryChars (d :: es) := rfl
      rw [hchars] at hfuel ⊢
      simp only [List.length_append, List.length_cons] at hfuel
      have hskip : skipSpace (entryChars (d :: es) ++ '\x7d' :: rest) =
          entryChars (d :: es) ++ '\x7d' :: rest := by
        rw [entryChars, List.append_assoc, skipSpace_keyedChars (h d (by simp)).1]
      have hrest := ih d (e :: done) fuel (fun u hu => h u (List.mem_cons_of_mem e hu)) (by omega)
      rw [List.append_assoc, List.cons_append,
        keyed_chars hkey hv done _ (.inl rfl) (by omega), if_pos rfl, hskip, hrest]
      simp

theorem value_object {es : List (JsonText × Json)} (h : ∀ e ∈ es, e.1.isSome ∧ ReadsOff e.2) :
    ReadsOff (.object es) := by
  intro fuel rest hfuel hrest
  cases es with
  | nil =>
      obtain ⟨fuel, rfl⟩ : ∃ k, fuel = k + 1 := ⟨fuel - 1, by simp [chars] at hfuel; omega⟩
      simp [chars, entryChars, value, skipSpace_cons (show isSpace '\x7d' = false by decide)]
  | cons e es =>
      have hchars : chars (.object (e :: es)) =
          '\x7b' :: (entryChars (e :: es) ++ ['\x7d']) := rfl
      simp only [hchars, List.length_cons, List.length_append, List.length_nil] at hfuel ⊢
      obtain ⟨fuel, rfl⟩ : ∃ k, fuel = k + 1 := ⟨fuel - 1, by omega⟩
      have hentries := entries_chars e es [] fuel rest h (by omega)
      obtain ⟨key, hkey⟩ := Option.isSome_iff_exists.mp (h e (by simp)).1
      have hhead : entryChars (e :: es) ++ '\x7d' :: rest = '"' :: (key.toList.flatMap Writer.escape
          ++ '"' :: ':' :: (chars e.2 ++ (laterEntryChars es ++ '\x7d' :: rest))) := by
        obtain ⟨key', v⟩ := e
        cases hkey
        simp [entryChars, keyedChars, Writer.text, Writer.toList_quote]
      simp only [List.cons_append, List.append_assoc, List.nil_append]
      rw [hhead] at hentries ⊢
      simp [value, skipSpace_cons (show isSpace '"' = false by decide), hentries]

end Reader

/-- A number that is read off the text that is written for it. -/
def ReadsBack (n : JsonNumber) : Prop :=
  Reader.number (Writer.number "" n).toList = some (n, [])

theorem readsBack_integer (n : Nat) : ReadsBack (.integer false n) := by
  have htext : (Writer.number "" (.integer false n)).toList = Nat.toDigits 10 n := by
    simp [Writer.number]
  rw [ReadsBack, htext, Reader.number_toDigits]

/-- All texts of a value are such, and all its numbers read back. -/
def Legible (j : Json) : Prop :=
  .string none ∉ j.leaves ∧ ∀ n, .number n ∈ j.leaves → ReadsBack n

theorem Legible.of_mem_array {items : List Json} {v : Json} (h : Legible (.array items))
    (hv : v ∈ items) : v.Legible := by
  have hleaves : ∀ a ∈ v.leaves, a ∈ (Json.array items).leaves := by
    intro a ha
    rw [leaves, itemLeaves_eq]
    exact List.mem_flatMap.mpr ⟨v, hv, ha⟩
  exact ⟨fun ht => h.1 (hleaves _ ht), fun n hn => h.2 n (hleaves _ hn)⟩

theorem Legible.of_mem_object {es : List (JsonText × Json)} {e : JsonText × Json}
    (h : Legible (.object es)) (he : e ∈ es) : e.1.isSome ∧ e.2.Legible := by
  have hleaves : ∀ a ∈ .string e.1 :: e.2.leaves, a ∈ (Json.object es).leaves := by
    intro a ha
    rw [leaves, entryLeaves_eq]
    exact List.mem_flatMap.mpr ⟨e, he, ha⟩
  have hkey : e.1 ≠ none := by
    intro hnone
    exact h.1 (hleaves _ (by simp [hnone]))
  exact ⟨Option.isSome_iff_ne_none.mpr hkey,
    fun ht => h.1 (hleaves _ (List.mem_cons_of_mem _ ht)),
    fun n hn => h.2 n (hleaves _ (List.mem_cons_of_mem _ hn))⟩

theorem Legible.readsOff {j : Json} (h : j.Legible) : Reader.ReadsOff j := by
  induction j using induct with
  | null =>
      intro fuel rest hfuel hrest
      obtain ⟨fuel, rfl⟩ : ∃ k, fuel = k + 1 := ⟨fuel - 1, by simp [chars] at hfuel; omega⟩
      exact Reader.word?_append "null" .null rest
  | bool b =>
      intro fuel rest hfuel hrest
      obtain ⟨fuel, rfl⟩ : ∃ k, fuel = k + 1 :=
        ⟨fuel - 1, by cases b <;> simp [chars] at hfuel <;> omega⟩
      cases b with
      | false => exact Reader.word?_append "false" (.bool false) rest
      | true => exact Reader.word?_append "true" (.bool true) rest
  | number n =>
      intro fuel rest hfuel hrest
      have hn := h.2 n (by simp [leaves])
      unfold ReadsBack at hn
      simp only [chars] at hfuel ⊢
      generalize (Writer.number "" n).toList = cs at hn hfuel
      cases cs with
      | nil => cases hn
      | cons c cs =>
          obtain ⟨fuel, rfl⟩ : ∃ k, fuel = k + 1 := ⟨fuel - 1, by simp at hfuel; omega⟩
          exact Reader.value_number (Reader.number_append hrest hn)
  | string t =>
      intro fuel rest hfuel hrest
      cases t with
      | none => exact (h.1 (by simp [leaves])).elim
      | some t =>
          obtain ⟨fuel, rfl⟩ : ∃ k, fuel = k + 1 :=
            ⟨fuel - 1, by simp [chars, Writer.text, Writer.toList_quote] at hfuel; omega⟩
          rw [chars, Reader.toList_text_some, Reader.value, Reader.text_quoted]
          rfl
  | array items ih => exact Reader.value_array fun v hv => ih v hv (h.of_mem_array hv)
  | object es ih =>
      refine Reader.value_object fun e he => ?_
      obtain ⟨hkey, hvalue⟩ := h.of_mem_object he
      exact ⟨hkey, ih e he hvalue⟩

theorem ofText?_toText {j : Json} (h : j.Legible) : ofText? j.toText = some j := by
  have hskip := h.readsOff.skipSpace []
  have hread := h.readsOff (2 * (chars j).length + 2) [] (by omega) (by simp [Reader.EndsNumber])
  rw [List.append_nil] at hskip hread
  have hend : Reader.skipSpace [] = [] := rfl
  simp [ofText?, toList_toText, hskip, hread, hend]

end TypeResolution.Json

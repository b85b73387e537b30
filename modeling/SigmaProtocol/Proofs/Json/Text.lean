import SigmaProtocol.Proofs.Json.Tokens

/-!
# Compact text is read back

A builder that is given the tokens of a value, wherever a value may stand, ends with this value
finished and with all that was open before it as it was. Both the text of the tokens and the tokens
of the value are taken apart along the structure of the value.

* `Json.Valid.separated_tokens`: the tokens of a value can be told apart in its text.
* `Json.Valid.builds`: the tokens of a value are built into the value.
* `Json.parse?_render`: the two together.
-/

namespace SigmaProtocol.Json

/-- All numbers in a value are numbers by the grammar. -/
inductive Valid : Json → Prop
  | null : Valid .null
  | bool (b : Bool) : Valid (.bool b)
  | number {numeral : List Char} (h : IsNumeral numeral) : Valid (.number numeral)
  | text (t : Option String) : Valid (.text t)
  | array {items : List Json} (h : ∀ v ∈ items, Valid v) : Valid (.array items)
  | object {members : List (Option String × Json)} (h : ∀ m ∈ members, Valid m.2) :
      Valid (.object members)

/-! ## From the text to the tokens -/

section Separated

open Token

theorem isNumber_head_itemTokens (vs : List Json) :
    ∀ u ∈ (itemTokens vs ++ [Token.closeArray]).head?, u.isNumber = false := by
  cases vs <;> simp [itemTokens, isNumber]

theorem isNumber_head_memberTokens (ms : List (Option String × Json)) :
    ∀ u ∈ (memberTokens ms ++ [Token.closeObject]).head?, u.isNumber = false := by
  cases ms <;> simp [memberTokens, isNumber]

/-- The items of an array after the first, with their commas and the bracket that closes them. -/
theorem separated_itemTokens {vs : List Json} (h : ∀ v ∈ vs, Separated v.tokens) :
    Separated (itemTokens vs ++ [Token.closeArray]) := by
  induction vs with
  | nil => exact separated_singleton nofun
  | cons v vs ih =>
    obtain ⟨hv, hvs⟩ := List.forall_mem_cons.mp h
    rw [itemTokens, List.cons_append, List.cons_append, List.append_assoc]
    exact .cons rfl (hv.append (ih hvs) (isNumber_head_itemTokens vs))

theorem separated_memberTokens {ms : List (Option String × Json)}
    (h : ∀ m ∈ ms, Separated m.2.tokens) : Separated (memberTokens ms ++ [Token.closeObject]) := by
  induction ms with
  | nil => exact separated_singleton nofun
  | cons m ms ih =>
    obtain ⟨hm, hms⟩ := List.forall_mem_cons.mp h
    simp only [memberTokens, List.cons_append, List.append_assoc]
    exact .cons rfl (.cons rfl (.cons rfl (hm.append (ih hms) (isNumber_head_memberTokens ms))))

/-- The punctuation of arrays and objects keeps the numbers in them apart. -/
theorem Valid.separated_tokens {v : Json} (h : v.Valid) : Separated v.tokens := by
  induction h with
  | null => exact separated_singleton nofun
  | bool b => exact separated_singleton nofun
  | number h => exact separated_singleton fun heq => by cases heq; exact h
  | text t => exact separated_singleton nofun
  | @array items _ ih =>
    cases items with
    | nil => exact .cons rfl (separated_singleton nofun)
    | cons v vs =>
      obtain ⟨hv, hvs⟩ := List.forall_mem_cons.mp ih
      rw [tokens, List.cons_append, List.cons_append, List.append_assoc]
      exact .cons rfl (hv.append (separated_itemTokens hvs) (isNumber_head_itemTokens vs))
  | @object members _ ih =>
    cases members with
    | nil => exact .cons rfl (separated_singleton nofun)
    | cons m ms =>
      obtain ⟨hm, hms⟩ := List.forall_mem_cons.mp ih
      simp only [tokens, List.cons_append, List.append_assoc]
      exact .cons rfl (.cons rfl (.cons rfl
        (hm.append (separated_memberTokens hms) (isNumber_head_memberTokens ms))))

end Separated

/-! ## From the tokens to the value -/

namespace Builder

/-- Wherever a value may stand, the tokens are built into `v`. -/
def Builds (ts : List Token) (v : Json) : Prop :=
  ∀ stack, ∃ t rest b, ts = t :: rest ∧ startValue stack t = some b ∧
    rest.foldlM step b = some ⟨stack, .done v⟩

variable {ts : List Token} {v : Json}

theorem Builds.foldlM_value (h : Builds ts v) (stack : List Frame) :
    ts.foldlM step ⟨stack, .value⟩ = some ⟨stack, .done v⟩ := by
  obtain ⟨t, rest, b, rfl, hstart, hrest⟩ := h stack
  have hstep : step ⟨stack, .value⟩ t = some b := hstart
  rw [List.foldlM_cons, hstep]
  exact hrest

/-- No value begins with the end of an array. -/
theorem Builds.foldlM_firstItem (h : Builds ts v) (stack : List Frame) :
    ts.foldlM step ⟨stack, .firstItem⟩ = some ⟨stack, .done v⟩ := by
  obtain ⟨t, rest, b, rfl, hstart, hrest⟩ := h stack
  have hstep : step ⟨stack, .firstItem⟩ t = some b := by
    cases t with
    | closeArray => cases hstart
    | _ => exact hstart
  rw [List.foldlM_cons, hstep]
  exact hrest

/-- Inside an array the builder goes on with the item that is finished, and the rest follows. -/
theorem foldlM_itemTokens {vs : List Json} (h : ∀ v ∈ vs, Builds v.tokens v) (items : List Json)
    (v : Json) (stack : List Frame) :
    (itemTokens vs ++ [Token.closeArray]).foldlM step ⟨.array items :: stack, .done v⟩ =
      some ⟨stack, .done (.array ((v :: items).reverse ++ vs))⟩ := by
  induction vs generalizing items v with
  | nil => simp [itemTokens, step]
  | cons w ws ih =>
    obtain ⟨hw, hws⟩ := List.forall_mem_cons.mp h
    have hcomma : step ⟨.array items :: stack, .done v⟩ .comma =
        some ⟨.array (v :: items) :: stack, .value⟩ := rfl
    simp only [itemTokens, List.cons_append, List.append_assoc, List.foldlM_cons, hcomma,
      Option.bind_eq_bind, Option.bind_some]
    rw [List.foldlM_append, hw.foldlM_value, Option.bind_eq_bind, Option.bind_some, ih hws]
    simp

theorem foldlM_memberTokens {ms : List (Option String × Json)}
    (h : ∀ m ∈ ms, Builds m.2.tokens m.2) (members : List (Option String × Json))
    (key : Option String) (v : Json) (stack : List Frame) :
    (memberTokens ms ++ [Token.closeObject]).foldlM step ⟨.object members key :: stack, .done v⟩ =
      some ⟨stack, .done (.object (((key, v) :: members).reverse ++ ms))⟩ := by
  induction ms generalizing members key v with
  | nil => simp [memberTokens, step]
  | cons m ms ih =>
    obtain ⟨hm, hms⟩ := List.forall_mem_cons.mp h
    have hcomma : step ⟨.object members key :: stack, .done v⟩ .comma =
        some ⟨stack, .member ((key, v) :: members)⟩ := rfl
    have hkey : step ⟨stack, .member ((key, v) :: members)⟩ (.text m.1) =
        some ⟨stack, .colon ((key, v) :: members) m.1⟩ := rfl
    have hcolon : step ⟨stack, .colon ((key, v) :: members) m.1⟩ .colon =
        some ⟨.object ((key, v) :: members) m.1 :: stack, .value⟩ := rfl
    simp only [memberTokens, List.cons_append, List.append_assoc, List.foldlM_cons, hcomma, hkey,
      hcolon, Option.bind_eq_bind, Option.bind_some]
    rw [List.foldlM_append, hm.foldlM_value, Option.bind_eq_bind, Option.bind_some, ih hms]
    simp

end Builder

open Builder

theorem Valid.builds {v : Json} (h : v.Valid) : Builds v.tokens v := by
  induction h with
  | null => exact fun stack => ⟨_, _, _, rfl, rfl, rfl⟩
  | bool b => exact fun stack => ⟨_, _, _, rfl, rfl, rfl⟩
  | number h => exact fun stack => ⟨_, _, _, rfl, rfl, rfl⟩
  | text t => exact fun stack => ⟨_, _, _, rfl, rfl, rfl⟩
  | @array items _ ih =>
    intro stack
    cases items with
    | nil => exact ⟨_, _, _, rfl, rfl, rfl⟩
    | cons v vs =>
      obtain ⟨hv, hvs⟩ := List.forall_mem_cons.mp ih
      -- The first item is read where the array could have ended, the others behind commas.
      refine ⟨.openArray, v.tokens ++ (itemTokens vs ++ [Token.closeArray]),
        ⟨.array [] :: stack, .firstItem⟩, by simp [tokens], rfl, ?_⟩
      rw [List.foldlM_append, hv.foldlM_firstItem]
      exact foldlM_itemTokens hvs [] v stack
  | @object members _ ih =>
    intro stack
    cases members with
    | nil => exact ⟨_, _, _, rfl, rfl, rfl⟩
    | cons m ms =>
      obtain ⟨hm, hms⟩ := List.forall_mem_cons.mp ih
      refine ⟨.openObject,
        .text m.1 :: .colon :: (m.2.tokens ++ (memberTokens ms ++ [Token.closeObject])),
        ⟨stack, .firstMember⟩, by simp [tokens], rfl, ?_⟩
      have hkey : step ⟨stack, .firstMember⟩ (.text m.1) = some ⟨stack, .colon [] m.1⟩ := rfl
      have hcolon : step ⟨stack, .colon [] m.1⟩ .colon =
        some ⟨.object [] m.1 :: stack, .value⟩ := rfl
      simp only [List.foldlM_cons, hkey, hcolon, Option.bind_eq_bind, Option.bind_some]
      rw [List.foldlM_append, hm.foldlM_value]
      exact foldlM_memberTokens hms [] m.1 m.2 stack

/-- **Text.** The compact text of a value is read back as the value. -/
theorem parse?_render {v : Json} (h : v.Valid) : parse? v.render = some v := by
  have hbuild : ofTokens? v.tokens = some v := by
    rw [ofTokens?, Builder.initial, h.builds.foldlM_value]
    rfl
  rw [parse?, render, String.toList_ofList, tokens?_chars h.separated_tokens]
  exact hbuild

end SigmaProtocol.Json

import AnvilReth.Maps.Basic

/-! # Documents and derived codecs

A codec turns values into documents and back. Codecs of options, lists, maps
and raw documents come from those of their parts. A record is an object whose
fields may be missing, in which case they take their defaults, and read back
by name from an object or by position from an array.
-/

namespace Serde

open Std

/-- A document; the entries of an object keep their order and repetitions. -/
inductive Json where
  | null
  | bool (value : Bool)
  | number (text : String)
  | string (text : String)
  | array (items : List Json)
  | object (fields : List (String × Json))

abbrev Result (α : Type*) := Except String α

theorem ok_of_bind {α β : Type} {x : Result α} {f : α → Result β} {b : β}
    (h : (x >>= f) = .ok b) : ∃ a, x = .ok a ∧ f a = .ok b := by
  cases x with
  | error e => cases h
  | ok a => exact ⟨a, rfl, h⟩

structure Codec (α : Type*) where
  encode : α → Json
  decode : Json → Result α

/-- Decoding gives back every encoded value. -/
def Codec.Lawful {α : Type*} (c : Codec α) : Prop := ∀ a, c.decode (c.encode a) = .ok a

/-- How a map key becomes the name of an object field. -/
structure KeyCodec (κ : Type*) where
  encode : κ → String
  decode : String → Result κ

def KeyCodec.Lawful {κ : Type*} (c : KeyCodec κ) : Prop := ∀ k, c.decode (c.encode k) = .ok k

variable {α κ : Type}

/-- A document as it stands. -/
def Codec.raw : Codec Json where
  encode := id
  decode := .ok

theorem Codec.raw_lawful : Codec.raw.Lawful := fun _ => rfl

def encodeOption (c : Codec α) : Option α → Json
  | none => .null
  | some a => c.encode a

def decodeOption (c : Codec α) : Json → Result (Option α)
  | .null => .ok none
  | j => (c.decode j).map some

/-- An optional value; absence is the null document. -/
def Codec.option (c : Codec α) : Codec (Option α) where
  encode := encodeOption c
  decode := decodeOption c

/-- Options round-trip on values that are not themselves encoded as null. -/
theorem Codec.option_decode_some {c : Codec α} {a : α} (h : c.decode (c.encode a) = .ok a)
    (hn : c.encode a ≠ .null) : c.option.decode (c.option.encode (some a)) = .ok (some a) := by
  change decodeOption c (c.encode a) = _
  unfold decodeOption
  split
  · rename_i he
    exact absurd he hn
  · rw [h]
    rfl

/-- No optional value is read from a null document. -/
theorem Codec.option_raw_ne_null {j : Json} {value : Option Json}
    (h : Codec.raw.option.decode j = .ok value) : value ≠ some .null := by
  change decodeOption Codec.raw j = _ at h
  unfold decodeOption at h
  split at h
  · cases h
    nofun
  · rename_i hj
    cases h
    exact fun he => hj (Option.some.inj he)

def Codec.list (c : Codec α) : Codec (List α) where
  encode l := .array (l.map c.encode)
  decode
    | .array items => items.mapM c.decode
    | _ => .error "invalid type: expected a sequence"

theorem Codec.list_lawful {c : Codec α} (hc : c.Lawful) : c.list.Lawful := by
  intro l
  change (l.map c.encode).mapM c.decode = .ok l
  induction l with
  | nil => rfl
  | cons a l ih =>
    rw [List.map_cons, List.mapM_cons, hc a, ih]
    rfl

section Map

variable [Ord κ] [TransOrd κ]

/-- The entries of an object decoded in order; a repeated key overwrites. -/
def decodeEntries (k : KeyCodec κ) (c : Codec α) :
    List (String × Json) → Result (List (κ × α))
  | [] => .ok []
  | (name, j) :: rest => do
    let key ← k.decode name
    let value ← c.decode j
    let entries ← decodeEntries k c rest
    return (key, value) :: entries

def Codec.map (k : KeyCodec κ) (c : Codec α) : Codec (ExtTreeMap κ α) where
  encode m := .object (m.toList.map fun e => (k.encode e.1, c.encode e.2))
  decode
    | .object fields => (decodeEntries k c fields).map (Maps.insertAll ∅)
    | _ => .error "invalid type: expected a map"

omit [Ord κ] [TransOrd κ] in
theorem decodeEntries_encode {k : KeyCodec κ} {c : Codec α} (hk : k.Lawful)
    (l : List (κ × α)) (hc : ∀ e ∈ l, c.decode (c.encode e.2) = .ok e.2) :
    decodeEntries k c (l.map fun e => (k.encode e.1, c.encode e.2)) = .ok l := by
  induction l with
  | nil => rfl
  | cons e l ih =>
    obtain ⟨key, value⟩ := e
    simp only [List.map_cons, decodeEntries]
    rw [hk key, hc _ List.mem_cons_self, ih fun e he => hc e (List.mem_cons_of_mem _ he)]
    rfl

/-- Maps round-trip when their keys and the values they hold do. -/
theorem Codec.map_decode [LawfulEqOrd κ] [DecidableEq κ] {k : KeyCodec κ} {c : Codec α}
    (hk : k.Lawful) (m : ExtTreeMap κ α) (hc : ∀ e ∈ m.toList, c.decode (c.encode e.2) = .ok e.2) :
    (Codec.map k c).decode ((Codec.map k c).encode m) = .ok m := by
  change (decodeEntries k c _).map _ = _
  rw [decodeEntries_encode hk _ hc]
  exact congrArg Except.ok (Maps.insertAll_empty_toList m)

end Map

section Record

/-- The value of a field among its occurrences: there may be one at most. -/
def single (name : String) : List (String × Json) → Result (Option Json)
  | [] => .ok none
  | [e] => .ok (some e.2)
  | _ => .error ("duplicate field " ++ name)

/-- The document of a record field: by name in an object, by position in an
array, absent where there is none. -/
def field (index : ℕ) (name : String) : Json → Result (Option Json)
  | .object fields => single name (fields.filter fun e => e.1 = name)
  | .array items => .ok items[index]?
  | _ => .error "invalid type: expected a record"

/-- A field with a default, which a missing field takes. -/
def fieldOr (index : ℕ) (name : String) (c : Codec α) (dflt : α) (j : Json) : Result α := do
  match ← field index name j with
  | none => return dflt
  | some value => c.decode value

/-- An array read as a record has no more items than the record has fields. -/
def checkLength (fields : ℕ) : Json → Result Unit
  | .array items =>
    if items.length ≤ fields then .ok () else .error "invalid length: trailing items"
  | _ => .ok ()

/-- One encoded field, left out where the record's rule skips it. -/
def entry (skip : Bool) (name : String) (j : Json) : List (String × Json) :=
  if skip then [] else [(name, j)]

theorem filter_entry (skip : Bool) (name name' : String) (j : Json) :
    (entry skip name j).filter (fun e => e.1 = name') =
      if name = name' then entry skip name j else [] := by
  cases skip with
  | true => simp [entry]
  | false =>
    simp only [entry, Bool.false_eq_true, if_false, List.filter_singleton]
    split <;> simp_all

/-- A field whose only occurrence in the object is its own encoding, or that
was left out because it has its default, decodes to the encoded value. -/
theorem fieldOr_object {index : ℕ} {name : String} {c : Codec α} {dflt a : α} (skip : Bool)
    {fields : List (String × Json)}
    (hf : fields.filter (fun e => e.1 = name) = entry skip name (c.encode a))
    (hskip : skip = true → a = dflt) (hc : skip = false → c.decode (c.encode a) = .ok a) :
    fieldOr index name c dflt (.object fields) = .ok a := by
  have hs : field index name (.object fields) = single name (entry skip name (c.encode a)) :=
    congrArg (single name) hf
  rw [fieldOr, hs]
  cases skip with
  | true => exact congrArg Except.ok (hskip rfl).symm
  | false => exact hc rfl

/-- What holds of the default and of all a codec reads holds of the field. -/
theorem fieldOr_ok {index : ℕ} {name : String} {c : Codec α} {dflt a : α} {j : Json}
    {P : α → Prop} (hd : P dflt) (hc : ∀ j a, c.decode j = .ok a → P a)
    (h : fieldOr index name c dflt j = .ok a) : P a := by
  obtain ⟨value, -, h⟩ := ok_of_bind h
  cases value with
  | none =>
    obtain rfl := Except.ok.inj h
    exact hd
  | some value => exact hc value a h

end Record

end Serde

import BitLayout.Proofs.Request.Spelling

/-!
# BitLayout.Proofs.Request.Kinds

Options in any order and any grouping. Some options are for one kind of values, and a declaration
has one kind: options of two kinds are refused, in whatever order and attributes they stand. If they
are not, each key has the value that is written last for it, and it makes no difference where the
options of other keys stand.

* `Request.kind?_of_apply`, `Request.kinds_of_refused`: what a directive does to the kind of a
  request, and when it is refused;
* `Request.settled`: the request in which each key has its last value;
* `Request.eq_settled`: directives that are accepted make this request;
* `Request.ofAttributes_settled`: options spread over attributes are refused if two of them are of
  different kinds, and only then; otherwise they make this request in every arrangement.
-/

namespace BitLayout

/-! ## kinds and keys -/

/-- The kinds of values that options can be for. -/
inductive OptionKind where
  | integer
  | text
  | buffer
  | transform
  | externalTag
  | internalTag
deriving DecidableEq, Repr

/-- The kind of a form. -/
def Form.kind : Form → OptionKind
  | integer _ _ => .integer
  | text _ => .text
  | buffer => .buffer
  | transform _ => .transform
  | tagged _ false => .externalTag
  | tagged _ true => .internalTag

/-- What an option sets. -/
inductive OptionKey where
  | omit
  | default
  | id
  | preset
  | bitcount
  | range
  | string
  | opaqueBuffer
  | transform
  | tag
  | internalTag
deriving DecidableEq, Repr

namespace Directive

/-- The kind of values that a directive is for, if it is not for all. -/
def kind? : Directive → Option OptionKind
  | bitcount _ => some .integer
  | range _ _ => some .integer
  | string _ => some .text
  | opaqueBuffer => some .buffer
  | transform _ => some .transform
  | tag _ => some .externalTag
  | internalTag _ => some .internalTag
  | _ => none

/-- What a directive sets. -/
def key : Directive → OptionKey
  | omitted => .omit
  | default _ => .default
  | id _ => .id
  | preset _ => .preset
  | bitcount _ => .bitcount
  | range _ _ => .range
  | string _ => .string
  | opaqueBuffer => .opaqueBuffer
  | transform _ => .transform
  | tag _ => .tag
  | internalTag _ => .internalTag

/-- Two directives are for different kinds of values. -/
def Clash (d e : Directive) : Prop := ∃ k l, d.kind? = some k ∧ e.kind? = some l ∧ k ≠ l

end Directive

/-- The kind of a request. -/
def Request.kind? (r : Request) : Option OptionKind := r.form.map Form.kind

/-! ## acting on a request -/

namespace Request

variable {r s : Request} {d : Directive} {ds : List Directive} {k : OptionKind}

/-- A directive is for the values that a request is for, if both are for one kind only. -/
def Agrees (r : Request) (d : Directive) : Prop :=
  ∀ k l, r.kind? = some k → d.kind? = some l → k = l

/-- The form of a request, as one of its keys of the integer form is changed. -/
def withKey (form : Option Form) (update : Option Nat → Option (Int × Int) → Form) : Form :=
  match form with
  | some (.integer bits range) => update bits range
  | _ => update none none

/-- A request with the value of a directive, whatever kinds both are for. -/
def set (r : Request) : Directive → Request
  | .omitted => { r with omitted := true }
  | .default value => { r with default := some value }
  | .id n => { r with variantId := some n }
  | .preset name => { r with preset := some name }
  | .bitcount n => { r with form := some (withKey r.form fun _ range => .integer (some n) range) }
  | .range min max =>
    { r with form := some (withKey r.form fun bits _ => .integer bits (some (min, max))) }
  | .string unterminated => { r with form := some (.text unterminated) }
  | .opaqueBuffer => { r with form := some .buffer }
  | .transform t => { r with form := some (.transform t) }
  | .tag field => { r with form := some (.tagged field false) }
  | .internalTag field => { r with form := some (.tagged field true) }

/-- A form is given to a request that has none of another kind. -/
theorem withForm_cases (r : Request) {new : Form} (hnew : new.kind ≠ .integer) :
    (∀ k, r.kind? = some k → k = new.kind) ∧ r.withForm new = .ok { r with form := some new } ∨
      (∃ k, r.kind? = some k ∧ k ≠ new.kind) ∧ ∃ e, r.withForm new = .error e := by
  obtain ⟨omitted, default, id, preset, form⟩ := r
  cases form with
  | none => exact .inl ⟨fun k hk => (nomatch hk), rfl⟩
  | some old =>
    rcases old with _ | ⟨_, _⟩ | _ | _ | ⟨_, _ | _⟩ <;>
      rcases new with _ | ⟨_, _⟩ | _ | _ | ⟨_, _ | _⟩ <;>
      simp [withForm, kind?, Form.kind, Form.title] at hnew ⊢

/-- A key of the integer form is given to a request that has no other form. -/
theorem withInteger_cases (r : Request) (update : Option Nat → Option (Int × Int) → Form) :
    (∀ k, r.kind? = some k → k = .integer) ∧
        r.withInteger update = .ok { r with form := some (withKey r.form update) } ∨
      (∃ k, r.kind? = some k ∧ k ≠ .integer) ∧ ∃ e, r.withInteger update = .error e := by
  obtain ⟨omitted, default, id, preset, form⟩ := r
  cases form with
  | none => exact .inl ⟨fun k hk => (nomatch hk), rfl⟩
  | some old =>
    rcases old with _ | ⟨_, _⟩ | _ | _ | ⟨_, _ | _⟩ <;>
      simp [withInteger, kind?, Form.kind, withKey]

theorem agrees_iff (hk : d.kind? = some k) : r.Agrees d ↔ ∀ l, r.kind? = some l → l = k := by
  simp [Agrees, hk]

theorem not_agrees_iff : ¬ r.Agrees d ↔ ∃ k l, r.kind? = some k ∧ d.kind? = some l ∧ k ≠ l := by
  simp [Agrees]

/-- A directive of a kind is accepted as its form or key is. -/
theorem cases_of_kind (hk : d.kind? = some k) {result : Except RequestError Request}
    (h : (∀ l, r.kind? = some l → l = k) ∧ result = .ok s ∨
      (∃ l, r.kind? = some l ∧ l ≠ k) ∧ ∃ e, result = .error e) :
    r.Agrees d ∧ result = .ok s ∨ ¬ r.Agrees d ∧ ∃ e, result = .error e := by
  rcases h with ⟨hagrees, hok⟩ | ⟨⟨l, hl, hne⟩, herror⟩
  · exact .inl ⟨(agrees_iff hk).2 hagrees, hok⟩
  · exact .inr ⟨not_agrees_iff.2 ⟨l, k, hl, hk, hne⟩, herror⟩

/-- **A directive** is accepted if it is for the kind of the request, and only then. -/
theorem apply_cases (r : Request) (d : Directive) :
    r.Agrees d ∧ r.apply d = .ok (r.set d) ∨ ¬ r.Agrees d ∧ ∃ e, r.apply d = .error e := by
  cases d with
  | bitcount n =>
    exact cases_of_kind rfl (withInteger_cases r fun _ range => .integer (some n) range)
  | range min max =>
    exact cases_of_kind rfl (withInteger_cases r fun bits _ => .integer bits (some (min, max)))
  | string unterminated => exact cases_of_kind rfl (withForm_cases r nofun)
  | opaqueBuffer => exact cases_of_kind rfl (withForm_cases r nofun)
  | transform t => exact cases_of_kind rfl (withForm_cases r nofun)
  | tag field => exact cases_of_kind rfl (withForm_cases r nofun)
  | internalTag field => exact cases_of_kind rfl (withForm_cases r nofun)
  | _ => exact .inl ⟨fun k l _ hl => (nomatch hl), rfl⟩

/-- A directive gives its kind to the request. Others keep the kind that it has. -/
theorem kind?_set (r : Request) (d : Directive) : (r.set d).kind? = d.kind?.or r.kind? := by
  have hinteger : ∀ update : Option Nat → Option (Int × Int) → Form,
      (∀ bits range, (update bits range).kind = .integer) →
      (withKey r.form update).kind = .integer := by
    intro update hupdate
    unfold withKey
    split <;> exact hupdate _ _
  cases d with
  | bitcount n => exact congrArg some (hinteger _ fun _ _ => rfl)
  | range min max => exact congrArg some (hinteger _ fun _ _ => rfl)
  | _ => rfl

theorem omitted_set (h : r.omitted = true) : (r.set d).omitted = true := by
  cases d <;> first | exact h | rfl

/-! ## last values -/

end Request

namespace Directive

/-- The default that a directive gives. -/
def default? : Directive → Option Fragment
  | default value => some value
  | _ => none

/-- The tag value that a directive gives. -/
def id? : Directive → Option Int
  | id n => some n
  | _ => none

/-- The preset that a directive names. -/
def preset? : Directive → Option String
  | preset name => some name
  | _ => none

/-- The number of bits that a directive gives. -/
def bitcount? : Directive → Option Nat
  | bitcount bits => some bits
  | _ => none

/-- The range that a directive gives. -/
def range? : Directive → Option (Int × Int)
  | range min max => some (min, max)
  | _ => none

/-- Whether a directive asks for a text without a terminator, if it asks for a text. -/
def text? : Directive → Option Bool
  | string unterminated => some unterminated
  | _ => none

/-- Whether a directive asks for the bytes as they are. -/
def buffer? : Directive → Option Unit
  | opaqueBuffer => some ()
  | _ => none

/-- The transform that a directive gives. -/
def transform? : Directive → Option Transform
  | transform t => some t
  | _ => none

/-- The field outside of a union that a directive names as its tag. -/
def tag? : Directive → Option String
  | tag field => some field
  | _ => none

/-- The field inside of a union that a directive names as its tag. -/
def internalTag? : Directive → Option String
  | internalTag field => some field
  | _ => none

/-- The last value that directives give to a key. -/
def last {α : Type} (value? : Directive → Option α) (ds : List Directive) : Option α :=
  (ds.filterMap value?).getLast?

theorem last_append_singleton {α : Type} (value? : Directive → Option α) (ds : List Directive)
    (d : Directive) : last value? (ds ++ [d]) = (value? d).or (last value? ds) := by
  cases hd : value? d <;> simp [last, List.filterMap_append, hd]

/-- The form that the last values of the two keys of the integer form make. -/
def integerForm (ds : List Directive) : Option Form :=
  match last bitcount? ds, last range? ds with
  | none, none => none
  | bits, bounds => some (.integer bits bounds)

/-- The form that the last values of all other keys make. -/
def otherForm (ds : List Directive) : Option Form :=
  ((last text? ds).map Form.text).or <| ((last buffer? ds).map fun _ => Form.buffer).or <|
    ((last transform? ds).map Form.transform).or <|
    ((last tag? ds).map (Form.tagged · false)).or <| (last internalTag? ds).map (Form.tagged · true)

end Directive

namespace Request

open Directive

/-- The request in which each key has the last value that directives give to it. -/
def settled (ds : List Directive) : Request where
  omitted := ds.contains .omitted
  default := last default? ds
  variantId := last id? ds
  preset := last preset? ds
  form := (integerForm ds).or (otherForm ds)

theorem kind_of_integerForm {f : Form} (h : integerForm ds = some f) : f.kind = .integer := by
  unfold integerForm at h
  split at h
  · cases h
  · obtain rfl := Option.some.inj h
    rfl

theorem kind_of_otherForm {f : Form} (h : otherForm ds = some f) : f.kind ≠ .integer := by
  simp only [otherForm, Option.or_eq_some_iff, Option.map_eq_some_iff] at h
  rcases h with ⟨_, _, rfl⟩ | ⟨-, ⟨_, _, rfl⟩ | ⟨-, ⟨_, _, rfl⟩ | ⟨-, ⟨_, _, rfl⟩ |
    ⟨-, _, _, rfl⟩⟩⟩⟩ <;> exact nofun

/-- The keys of the integer form have their last values, where there are any. -/
theorem withKey_settled (ds : List Directive) (update : Option Nat → Option (Int × Int) → Form) :
    withKey (settled ds).form update = update (last bitcount? ds) (last range? ds) := by
  have hother : ∀ bits range, otherForm ds ≠ some (.integer bits range) := fun bits range h =>
    kind_of_otherForm h rfl
  have hform : (settled ds).form = (integerForm ds).or (otherForm ds) := rfl
  rw [hform, integerForm]
  cases last bitcount? ds with
  | some n => rfl
  | none =>
    cases last range? ds with
    | some range => rfl
    | none =>
      rw [Option.none_or, withKey]
      exact hother

/-- Of two forms, the first is absent if the result is for another kind. -/
theorem eq_none_of_or {α : Type} {value : Option α} {make : α → Form} {rest : Option Form}
    (h : ∀ f, (value.map make).or rest = some f → f.kind = k) (hne : ∀ a, (make a).kind ≠ k) :
    value = none ∧ ∀ f, rest = some f → f.kind = k := by
  cases value with
  | none => exact ⟨rfl, h⟩
  | some a => exact absurd (h (make a) rfl) (hne a)

theorem integerForm_append (ds : List Directive) (h : d.kind? ≠ some .integer) :
    integerForm (ds ++ [d]) = integerForm ds := by
  have hnone : d.bitcount? = none ∧ d.range? = none := by
    cases d <;> first | exact ⟨rfl, rfl⟩ | exact absurd rfl h
  rw [integerForm, last_append_singleton, last_append_singleton, hnone.1, hnone.2]
  rfl

/-- **The last value**: a directive that agrees with the last values so far becomes the last value
of its key. -/
theorem set_settled (h : (settled ds).Agrees d) : (settled ds).set d = settled (ds ++ [d]) := by
  have hother : ∀ k, d.kind? = some k → k ≠ .integer → integerForm ds = none ∧
      ∀ f, otherForm ds = some f → f.kind = k := by
    intro k hk hne
    have hall := (agrees_iff hk).1 h
    cases hinteger : integerForm ds with
    | none =>
      refine ⟨rfl, fun f hf => hall _ ?_⟩
      rw [kind?, settled, hinteger, hf]
      rfl
    | some f =>
      refine absurd (hall f.kind ?_) (kind_of_integerForm hinteger ▸ hne.symm)
      rw [kind?, settled, hinteger]
      rfl
  have hsame := integerForm_append (d := d) ds
  cases d with
  | bitcount n =>
    rw [set, withKey_settled]
    simp [settled, last_append_singleton, integerForm, default?, id?, preset?, bitcount?, range?]
  | range min max =>
    rw [set, withKey_settled]
    simp [settled, last_append_singleton, integerForm, default?, id?, preset?, bitcount?, range?]
  | string unterminated =>
    obtain ⟨hinteger, -⟩ := hother .text rfl nofun
    simp [set, settled, hsame nofun, hinteger, otherForm, last_append_singleton,
      default?, id?, preset?, text?]
  | opaqueBuffer =>
    obtain ⟨hinteger, hrest⟩ := hother .buffer rfl nofun
    obtain ⟨htext, -⟩ := eq_none_of_or hrest nofun
    simp [set, settled, hsame nofun, hinteger, otherForm, last_append_singleton,
      default?, id?, preset?, text?, htext, buffer?]
  | transform t =>
    obtain ⟨hinteger, hrest⟩ := hother .transform rfl nofun
    obtain ⟨htext, hrest⟩ := eq_none_of_or hrest nofun
    obtain ⟨hbuffer, -⟩ := eq_none_of_or hrest nofun
    simp [set, settled, hsame nofun, hinteger, otherForm, last_append_singleton,
      default?, id?, preset?, text?, htext, buffer?, hbuffer, transform?]
  | tag field =>
    obtain ⟨hinteger, hrest⟩ := hother .externalTag rfl nofun
    obtain ⟨htext, hrest⟩ := eq_none_of_or hrest nofun
    obtain ⟨hbuffer, hrest⟩ := eq_none_of_or hrest nofun
    obtain ⟨htransform, -⟩ := eq_none_of_or hrest nofun
    simp [set, settled, hsame nofun, hinteger, otherForm, last_append_singleton,
      default?, id?, preset?, text?, htext, buffer?, hbuffer, transform?, htransform, tag?]
  | internalTag field =>
    obtain ⟨hinteger, hrest⟩ := hother .internalTag rfl nofun
    obtain ⟨htext, hrest⟩ := eq_none_of_or hrest nofun
    obtain ⟨hbuffer, hrest⟩ := eq_none_of_or hrest nofun
    obtain ⟨htransform, hrest⟩ := eq_none_of_or hrest nofun
    obtain ⟨htag, -⟩ := eq_none_of_or hrest nofun
    simp [set, settled, hsame nofun, hinteger, otherForm, last_append_singleton,
      default?, id?, preset?, text?, htext, buffer?, hbuffer, transform?, htransform, tag?, htag,
      internalTag?]
  | _ =>
    simp [set, settled, hsame nofun, otherForm, last_append_singleton,
      default?, id?, preset?, text?, buffer?, transform?, tag?, internalTag?]

/-! ## one directive after the other -/

/-- What is known of a request and of the errors so far, when these directives have been gone
through. -/
structure Progress (done : List Directive) (r : Request) (errors : List RequestError) : Prop where
  kinds : ∀ k, r.kind? = some k → ∃ d ∈ done, d.kind? = some k
  /-- Without errors, each key has its last value, and all directives are for the kind of the
  request. -/
  accepted : errors = [] →
    r = settled done ∧ ∀ d ∈ done, ∀ k, d.kind? = some k → r.kind? = some k
  refused : errors ≠ [] → r.omitted = true ∧ ∃ d ∈ done, ∃ e ∈ done, d.Clash e

namespace Progress

variable {done : List Directive} {errors : List RequestError} {e : RequestError}

theorem start : Progress [] empty [] where
  kinds _ hk := nomatch hk
  accepted _ := ⟨rfl, fun _ hd => (nomatch hd)⟩
  refused h := absurd rfl h

/-- **A step**: a directive that agrees with the request is set. -/
theorem step (h : Progress done r errors) (hagrees : r.Agrees d) :
    Progress (done ++ [d]) (r.set d) errors where
  kinds k hk := by
    rw [kind?_set, Option.or_eq_some_iff] at hk
    rcases hk with hk | ⟨-, hk⟩
    · exact ⟨d, by simp, hk⟩
    · obtain ⟨e, he, hk⟩ := h.kinds k hk
      exact ⟨e, List.mem_append_left _ he, hk⟩
  accepted herrors := by
    obtain ⟨hset, hall⟩ := h.accepted herrors
    refine ⟨by rw [hset] at hagrees ⊢; exact set_settled hagrees, fun e he k hk => ?_⟩
    rw [kind?_set]
    rcases List.mem_append.1 he with he | he
    · have hr := hall e he k hk
      cases hd : d.kind? with
      | none => exact hr
      | some l => exact congrArg some (hagrees k l hr hd).symm
    · obtain rfl := List.mem_singleton.1 he
      rw [hk]
      rfl
  refused herrors := by
    obtain ⟨homitted, e, he, f, hf, hclash⟩ := h.refused herrors
    exact ⟨omitted_set homitted, e, List.mem_append_left _ he, f, List.mem_append_left _ hf, hclash⟩

/-- **A stop**: where a directive does not agree with the request, the rest of the attribute is
passed over. -/
theorem stop (h : Progress done r errors) (hagrees : ¬ r.Agrees d) (rest : List Directive)
    (e : RequestError) :
    Progress (done ++ d :: rest) { r with omitted := true } (errors ++ [e]) where
  kinds k hk := by
    obtain ⟨f, hf, hk⟩ := h.kinds k hk
    exact ⟨f, List.mem_append_left _ hf, hk⟩
  accepted herrors := absurd herrors (List.append_ne_nil_of_right_ne_nil _ (List.cons_ne_nil _ _))
  refused _ := by
    obtain ⟨k, l, hk, hl, hne⟩ := not_agrees_iff.1 hagrees
    obtain ⟨f, hf, hk⟩ := h.kinds k hk
    exact ⟨rfl, f, List.mem_append_left _ hf, d, by simp, k, l, hk, hl, hne⟩

/-- **An attribute**: its options are set up to the first that does not agree. -/
theorem actAll (h : Progress done r errors) (ds : List Directive) :
    match BitLayout.actAll act r ds with
    | (s, none) => Progress (done ++ ds) s errors
    | (s, some e) => Progress (done ++ ds) { s with omitted := true } (errors ++ [e]) := by
  induction ds generalizing done r with
  | nil =>
    rw [List.append_nil]
    exact h
  | cons d ds ih =>
    rw [BitLayout.actAll, act]
    rcases r.apply_cases d with ⟨hagrees, hok⟩ | ⟨hagrees, e, herror⟩
    · rw [hok]
      simpa using ih (h.step hagrees)
    · rw [herror]
      exact h.stop hagrees ds e

end Progress

/-- Let an attribute act on a request, and add its error to those so far. -/
def take (p : Request × List RequestError) (a : Attribute) : Request × List RequestError :=
  match p.1.applyAttribute a with
  | (r, none) => (r, p.2)
  | (r, some e) => ({ r with omitted := true }, p.2 ++ [e])

theorem ofAttributes_eq (attrs : List Attribute) :
    ofAttributes attrs = (attrs.filter Attribute.isLayout).foldl take (empty, []) := rfl

/-- **Attributes**: the options of attributes that can be read are set, attribute by attribute. -/
theorem progress_ofAttributes {attrs : List Attribute} {groups : List (List Directive)}
    (h : Attribute.SpellAll attrs groups) :
    Progress groups.flatten (ofAttributes attrs).1 (ofAttributes attrs).2 := by
  rw [ofAttributes_eq]
  unfold Attribute.SpellAll at h
  generalize attrs.filter Attribute.isLayout = layout at h
  suffices hall : ∀ (done : List Directive) (p : Request × List RequestError),
      Progress done p.1 p.2 → Progress (done ++ groups.flatten)
        (layout.foldl take p).1 (layout.foldl take p).2 from hall [] (empty, []) .start
  induction h with
  | nil => exact fun done p hp => by simpa using hp
  | @cons a ds layout groups ha _ ih =>
    intro done p hp
    have hnext : Progress (done ++ ds) (take p a).1 (take p a).2 := by
      have hds := hp.actAll ds
      rw [take, applyAttribute_spells ha]
      cases hrun : actAll act p.1 ds with
      | mk s outcome =>
        rw [hrun] at hds
        cases outcome <;> exact hds
    simpa using ih (done ++ ds) (take p a) hnext

/-! ## arrangements -/

/-- The last value of a key is found among the directives of the key. -/
theorem last_filter {α : Type} {value? : Directive → Option α} {key : OptionKey}
    (hkey : ∀ d, d.key ≠ key → value? d = none) (ds : List Directive) :
    last value? (ds.filter (·.key = key)) = last value? ds := by
  rw [last, last, List.filterMap_filter]
  refine congrArg List.getLast? (List.filterMap_congr fun d _ => ?_)
  by_cases h : d.key = key
  · simp [h]
  · simp [h, hkey d h]

/-- Arrangements in which directives of one key stay in order have the same directives. -/
theorem mem_iff_of_filter {ds ds' : List Directive}
    (h : ∀ key, ds'.filter (·.key = key) = ds.filter (·.key = key)) (d : Directive) :
    d ∈ ds' ↔ d ∈ ds := by
  simpa using congrArg (d ∈ ·) (h d.key)

/-- A value that only the directives of one key have is the same in such arrangements. -/
theorem last_congr {α : Type} {ds ds' : List Directive}
    (h : ∀ key, ds'.filter (·.key = key) = ds.filter (·.key = key))
    (value? : Directive → Option α) (key : OptionKey)
    (hkey : ∀ d, d.key ≠ key → value? d = none := by
      intro d hd
      cases d <;> first | rfl | exact absurd rfl hd) :
    last value? ds' = last value? ds := by
  rw [← last_filter hkey ds', ← last_filter hkey ds, h key]

/-- **Arrangements**: only the order among directives of one key matters. -/
theorem settled_congr {ds ds' : List Directive}
    (h : ∀ key, ds'.filter (·.key = key) = ds.filter (·.key = key)) : settled ds' = settled ds := by
  have homitted : ds'.contains .omitted = ds.contains .omitted := by
    rw [Bool.eq_iff_iff, List.contains_iff_mem, List.contains_iff_mem]
    exact mem_iff_of_filter h .omitted
  simp only [settled, integerForm, otherForm, homitted, last_congr h default? .default,
    last_congr h id? .id, last_congr h preset? .preset, last_congr h bitcount? .bitcount,
    last_congr h range? .range, last_congr h text? .string, last_congr h buffer? .opaqueBuffer,
    last_congr h transform? .transform, last_congr h tag? .tag,
    last_congr h internalTag? .internalTag]

/-- **Options in any arrangement.** Where options are spread over the attributes of a declaration,
an error is reported, and the declaration left out, if two options are for different kinds of
values, and only then. Otherwise each key has the value that is written last for it, and the request
is the same however the options are grouped and ordered, if those of one key stay in order. -/
theorem ofAttributes_settled {attrs : List Attribute} {groups : List (List Directive)}
    (h : Attribute.SpellAll attrs groups) :
    ((ofAttributes attrs).2 ≠ [] ↔ ∃ d ∈ groups.flatten, ∃ e ∈ groups.flatten, d.Clash e) ∧
    ((ofAttributes attrs).2 ≠ [] → (ofAttributes attrs).1.omitted = true) ∧
    ((ofAttributes attrs).2 = [] → (ofAttributes attrs).1 = settled groups.flatten ∧
      ∀ attrs' groups', Attribute.SpellAll attrs' groups' →
        (∀ key, groups'.flatten.filter (·.key = key) = groups.flatten.filter (·.key = key)) →
        ofAttributes attrs' = ofAttributes attrs) := by
  have hp := progress_ofAttributes h
  refine ⟨⟨fun hne => (hp.refused hne).2, ?_⟩, fun hne => (hp.refused hne).1, fun hnil =>
    ⟨(hp.accepted hnil).1, fun attrs' groups' h' hkeys => ?_⟩⟩
  · rintro ⟨d, hd, e, he, k, l, hk, hl, hne⟩ hnil
    have hall := (hp.accepted hnil).2
    exact hne (Option.some.inj ((hall d hd k hk).symm.trans (hall e he l hl)))
  · have hp' := progress_ofAttributes h'
    have hnil' : (ofAttributes attrs').2 = [] := by
      by_contra hne
      -- The same two options are for different kinds in both arrangements.
      obtain ⟨-, d, hd, e, he, k, l, hk, hl, hclash⟩ := hp'.refused hne
      have hall := (hp.accepted hnil).2
      have hkd := hall d ((mem_iff_of_filter hkeys d).1 hd) k hk
      have hke := hall e ((mem_iff_of_filter hkeys e).1 he) l hl
      exact hclash (Option.some.inj (hkd.symm.trans hke))
    refine Prod.ext ?_ (hnil'.trans hnil.symm)
    rw [(hp'.accepted hnil').1, (hp.accepted hnil).1, settled_congr hkeys]

end Request

/-! ## options of an integer -/

namespace Sample

/-- The option `omit`. -/
def leftOut : Tokens := [.ident "omit"]

/-- The option `bitcount = 10`. -/
def tenBits : Tokens := [.ident "bitcount", .sign '=', .literal "10"]

/-- The option `range(-5, 500)`. -/
def bounds : Tokens :=
  [.ident "range", .opening .paren, .sign '-', .literal "5", .sign ',', .literal "500",
    .closing .paren]

theorem spelledBy_leftOut : Directive.SpelledBy .omitted leftOut := by
  intro rest hrest
  have hpath := Reading.not_separator_of_endsOption hrest
  exact ⟨"omit", .start rest, Reading.optionPath_word hpath, rfl⟩

theorem spelledBy_tenBits : Directive.SpelledBy (.bitcount 10) tenBits :=
  fun _ _ => ⟨"bitcount", _, Reading.optionPath_word rfl, rfl⟩

theorem spelledBy_bounds : Directive.SpelledBy (.range (-5) 500) bounds :=
  fun _ _ => ⟨"range", _, Reading.optionPath_word rfl, rfl⟩

/-- An attribute of the layout. -/
def layoutAttribute (tokens : Tokens) : Attribute :=
  ⟨false, .ofWord "bitpack", .group .paren tokens⟩

/-- Three options in two attributes. -/
def apart : List Attribute :=
  [layoutAttribute tenBits, layoutAttribute (bounds ++ .sign ',' :: leftOut)]

/-- The same options in another order, in one attribute with a comma at its end. -/
def together : List Attribute :=
  [layoutAttribute (leftOut ++ .sign ',' :: (bounds ++ .sign ',' :: (tenBits ++ [.sign ','])))]

/-- Both arrangements make the same request, of an integer that is left out. -/
theorem same_request :
    Attribute.SpellAll apart [[.bitcount 10], [.range (-5) 500, .omitted]] ∧
    Attribute.SpellAll together [[.omitted, .range (-5) 500, .bitcount 10]] ∧
    (Request.ofAttributes apart).1 =
      ⟨true, none, none, none, some (.integer (some 10) (some (-5, 500)))⟩ ∧
    Request.ofAttributes together = Request.ofAttributes apart := by
  have hapart : apart.filter Attribute.isLayout = apart := by decide
  have htogether : together.filter Attribute.isLayout = together := by decide
  have hspelled : Attribute.SpellAll apart [[.bitcount 10], [.range (-5) 500, .omitted]] := by
    rw [Attribute.SpellAll, hapart]
    exact .cons ⟨_, _, rfl, .last spelledBy_tenBits⟩
      (.cons ⟨_, _, rfl, .cons false spelledBy_bounds (.last spelledBy_leftOut)⟩ .nil)
  have hspelled' : Attribute.SpellAll together [[.omitted, .range (-5) 500, .bitcount 10]] := by
    rw [Attribute.SpellAll, htogether]
    exact .cons ⟨_, _, rfl, .cons false spelledBy_leftOut (.cons false spelledBy_bounds
      (.cons false spelledBy_tenBits .nil))⟩ .nil
  have haccepted : (Request.ofAttributes apart).2 = [] := by decide +kernel
  obtain ⟨-, -, hsettled⟩ := Request.ofAttributes_settled hspelled
  obtain ⟨hrequest, hsame⟩ := hsettled haccepted
  exact ⟨hspelled, hspelled', hrequest, hsame _ _ hspelled' fun key => by cases key <;> rfl⟩

end Sample

end BitLayout

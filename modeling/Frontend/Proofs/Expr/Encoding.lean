import Frontend.Expr.Encoding
import Frontend.Proofs.List
import Mathlib.Data.List.Forall2

/-!
# Reading trees back

A tree is read back from its JSON form, so no two trees have the same form
(`Expr.ofJson?_toJson`). The members of an object are a set, so this is true of them in any order,
not only in the one in which they are written: a reader looks them up by their keys
(`Json.Same.node?`).

What is read has to fit: numbers in 64 bits with sign, the numbers of operators in 32 bits, and
the bounds of spans in 64, whichever of them is the greater one (`Expr.Fits`).
-/

namespace Frontend

namespace Json

/-- The values are the same, up to the order of the members of objects. -/
inductive Same : Json → Json → Prop
  | refl (j : Json) : Same j j
  | arr {js js' : List Json} : List.Forall₂ Same js js' → Same (.arr js) (.arr js')
  | obj {ms ms' : List (String × Json)} : (ms.map Prod.fst).Perm (ms'.map Prod.fst) →
      (∀ key j j', (key, j) ∈ ms → (key, j') ∈ ms' → Same j j') → Same (.obj ms) (.obj ms')

variable {j j' : Json} {js : List Json} {ms : List (String × Json)} {key : String}
  {keys : List String} {values : List Json} {shape : Shape} {least greatest n : Int} {bits : Nat}

/-! ## Members -/

namespace Same

/-- The order of members makes no difference. -/
theorem of_perm (hms : (ms.map Prod.fst).Nodup) (h : ms.Perm ms') : Same (.obj ms) (.obj ms') := by
  refine .obj (h.map Prod.fst) fun key j j' hj hj' => ?_
  have hfind := (lookup_eq_some_iff_mem hms).2 hj
  rw [(lookup_eq_some_iff_mem hms).2 (h.mem_iff.2 hj')] at hfind
  obtain rfl := Option.some.inj hfind
  exact .refl _

theorem eq_str {s : String} (h : Same (.str s) j) : j = .str s := by
  cases h
  rfl

/-- A number in range is read back. -/
theorem int?_eq (h : Same (.int n) j) (hleast : least ≤ n) (hgreatest : n ≤ greatest) :
    j.int? least greatest = some n := by
  cases h
  exact if_pos ⟨hleast, hgreatest⟩

theorem nat?_eq {n : Nat} (h : Same (.int n) j) (hn : n < Nat.pow 2 bits) :
    j.nat? bits = some n := by
  have hbits : Int.pow 2 bits = Nat.pow 2 bits := (Int.natCast_pow 2 bits).symm
  rw [nat?, h.int?_eq (Int.natCast_nonneg n) (by omega), Option.map_some, Int.toNat_natCast]

/-- Another writing of an array has items that are the same, in the same order. -/
theorem exists_items (h : Same (.arr js) j) : ∃ js', j = .arr js' ∧ List.Forall₂ Same js js' := by
  cases h with
  | refl => exact ⟨js, rfl, List.forall₂_same.2 fun j _ => .refl j⟩
  | arr h => exact ⟨_, rfl, h⟩

/-- Members with the same key have the same value. -/
theorem exists_members (h : Same (.obj ms) j) :
    ∃ ms', j = .obj ms' ∧
      ∀ key v, find? key ms = some v → ∃ v', find? key ms' = some v' ∧ Same v v' := by
  cases h with
  | refl => exact ⟨ms, rfl, fun key v hv => ⟨v, hv, .refl v⟩⟩
  | @obj _ ms' hkeys hvalues =>
    refine ⟨ms', rfl, fun key v hv => ?_⟩
    have hmem := mem_of_lookup hv
    obtain ⟨v', hv'⟩ := exists_lookup (hkeys.mem_iff.1 (List.mem_map_of_mem hmem))
    exact ⟨v', hv', hvalues key v v' hmem (mem_of_lookup hv')⟩

end Same

/-- Members are found if each of them is. -/
theorem exists_members?
    (h : List.Forall₂ (fun key v => ∃ v', find? key ms = some v' ∧ Same v v') keys values) :
    ∃ ps, members? ms keys = some ps ∧ List.Forall₂ (fun v p => Same v p.1) values ps := by
  induction h with
  | nil => exact ⟨[], rfl, .nil⟩
  | @cons key v keys values hv _ ih =>
    obtain ⟨v', hfind, hsame⟩ := hv
    obtain ⟨ps, hps, hvalues⟩ := ih
    rw [members?]
    split
    · next hnone => exact nomatch hnone.symm.trans hfind
    · next p hp =>
      obtain rfl := Option.some.inj (hp.symm.trans hfind)
      rw [hps]
      exact ⟨_, rfl, .cons hsame hvalues⟩

/-! ## Nodes -/

theorem nodup_keys (hlen : shape.fields.length = values.length) :
    ((("node", Json.str shape.tag) :: shape.fields.zip values).map Prod.fst).Nodup := by
  rw [List.map_cons, List.map_fst_zip (Nat.le_of_eq hlen)]
  cases shape <;> simp [Shape.fields]

theorem ofJson?_tag (numbered : Bool) (shape : Shape) :
    Shape.ofJson? numbered (.str shape.tag) = some shape := by
  cases shape <;> rfl

/-- Whatever the order of its members, a node is taken apart into its shape and its fields. -/
theorem Same.node? (numbered : Bool) (h : Same (shape.node values) j)
    (hlen : shape.fields.length = values.length) :
    ∃ ps, j.node? numbered = some (shape, ps) ∧ List.Forall₂ (fun v p => Same v p.1) values ps := by
  obtain ⟨ms, rfl, hfind⟩ := h.exists_members
  have hkeys := nodup_keys hlen
  obtain ⟨tag, htag, hsame⟩ :=
    hfind "node" _ ((lookup_eq_some_iff_mem hkeys).2 List.mem_cons_self)
  obtain rfl := hsame.eq_str
  -- No key is there twice, so each field is found under its own.
  have hfields : List.Forall₂ (fun key v => ∃ v', find? key ms = some v' ∧ Same v v')
      shape.fields values :=
    List.forall₂_iff_zip.2 ⟨hlen, fun hmem =>
      hfind _ _ ((lookup_eq_some_iff_mem hkeys).2 (List.mem_cons_of_mem _ hmem))⟩
  obtain ⟨ps, hps, hvalues⟩ := exists_members? hfields
  refine ⟨ps, ?_, hvalues⟩
  simp [Json.node?, htag, ofJson?_tag, hps]

end Json

/-! ## Spans -/

/-- The bounds of a span fit in 64 bits. -/
structure Span.Fits (s : Span) : Prop where
  start_lt : s.start < Nat.pow 2 64
  stop_lt : s.stop < Nat.pow 2 64

/-- A span is read back from every writing of it. -/
theorem Span.ofJson?_of_same {s : Span} {j : Json} (hs : s.Fits) (h : s.toJson.Same j) :
    Span.ofJson? j = some s := by
  obtain ⟨ms, rfl, hfind⟩ := h.exists_members
  have hfields : List.Forall₂ (fun key (v : Json) => ∃ v', Json.find? key ms = some v' ∧ v.Same v')
      ["start", "end"] [.int s.start, .int s.stop] :=
    .cons (hfind "start" _ rfl) (.cons (hfind "end" _ rfl) .nil)
  obtain ⟨_, hbounds, _ | ⟨hstart, _ | ⟨hstop, ⟨⟩⟩⟩⟩ := Json.exists_members? hfields
  simp [Span.ofJson?, Json.fields?, hbounds, hstart.nat?_eq hs.start_lt, hstop.nat?_eq hs.stop_lt]

namespace Expr

/-- The numbers and the bounds of spans in an expression fit in the bits that are reserved for
    them. -/
inductive Fits : Expr → Prop
  | name {n : String} {s : Span} : s.Fits → Fits (.name n s)
  | number {v : Int} {s : Span} : Number.InRange v → s.Fits → Fits (.number v s)
  | binary {o : Nat} {x : String} {l r : Expr} {s : Span} : o < Nat.pow 2 32 → Fits l → Fits r →
      s.Fits → Fits (.binary o x l r s)
  | group {e : Expr} {s : Span} : Fits e → s.Fits → Fits (.group e s)
  | call {f : String} {es : List Expr} {s : Span} : (∀ e ∈ es, Fits e) → s.Fits →
      Fits (.call f es s)
  | sequence {x : String} {es : List Expr} {s : Span} : (∀ e ∈ es, Fits e) → s.Fits →
      Fits (.sequence x es s)

variable {e : Expr} {es : List Expr} {j : Json} {js : List Json}

/-! ## Trees -/

theorem decodeAll?_of_same (hes : ∀ e ∈ es, ∀ j, e.toJson.Same j → decode? true j = some e)
    (h : List.Forall₂ Json.Same (toJsonAll es) js) : decodeAll? js = some es := by
  induction es generalizing js with
  | nil =>
    cases h
    rw [decodeAll?]
  | cons e es ih =>
    obtain ⟨he, hes⟩ := List.forall_mem_cons.1 hes
    cases h with
    | cons hj hjs => simp [decodeAll?, he _ hj, ih hes hjs]

theorem decodeList?_of_same (hes : ∀ e ∈ es, ∀ j, e.toJson.Same j → decode? true j = some e)
    (h : (Json.arr (toJsonAll es)).Same j) : decodeList? j = some es := by
  obtain ⟨js, rfl, hjs⟩ := h.exists_items
  rw [decodeList?]
  exact decodeAll?_of_same hes hjs

/-- An expression in range is read back from every writing of it, by induction on the expression. -/
theorem Fits.decode?_eq (h : e.Fits) (below : Bool) (hj : e.toJson.Same j) :
    decode? below j = some e := by
  induction h generalizing below j with
  | name hs =>
    obtain ⟨_, hnode, _ | ⟨hn, _ | ⟨hspan, ⟨⟩⟩⟩⟩ := hj.node? below rfl
    rw [decode?, hnode]
    simp [hn.eq_str, Json.str?, Span.ofJson?_of_same hs hspan]
  | number hv hs =>
    obtain ⟨_, hnode, _ | ⟨hvalue, _ | ⟨hspan, ⟨⟩⟩⟩⟩ := hj.node? below rfl
    rw [decode?, hnode]
    simp [hvalue.int?_eq hv.1 hv.2, Span.ofJson?_of_same hs hspan]
  | binary ho _ _ hs ihl ihr =>
    obtain ⟨_, hnode, _ | ⟨hop, _ | ⟨hx, _ | ⟨hl, _ | ⟨hr, _ | ⟨hspan, ⟨⟩⟩⟩⟩⟩⟩⟩ :=
      hj.node? below rfl
    rw [decode?, hnode]
    simp [hop.nat?_eq ho, hx.eq_str, Json.str?, ihl true hl, ihr true hr,
      Span.ofJson?_of_same hs hspan]
  | group _ hs ih =>
    obtain ⟨_, hnode, _ | ⟨hinner, _ | ⟨hspan, ⟨⟩⟩⟩⟩ := hj.node? below rfl
    rw [decode?, hnode]
    simp [ih true hinner, Span.ofJson?_of_same hs hspan]
  | call _ hs ih =>
    obtain ⟨_, hnode, _ | ⟨hf, _ | ⟨hargs, _ | ⟨hspan, ⟨⟩⟩⟩⟩⟩ := hj.node? below rfl
    have hes := decodeList?_of_same (fun e he _ => ih e he true) hargs
    rw [decode?, hnode]
    simp [hf.eq_str, Json.str?, hes, Span.ofJson?_of_same hs hspan]
  | sequence _ hs ih =>
    obtain ⟨_, hnode, _ | ⟨hx, _ | ⟨helements, _ | ⟨hspan, ⟨⟩⟩⟩⟩⟩ := hj.node? below rfl
    have hes := decodeList?_of_same (fun e he _ => ih e he true) helements
    rw [decode?, hnode]
    simp [hx.eq_str, Json.str?, hes, Span.ofJson?_of_same hs hspan]

/-- A tree is read back from its JSON form, with the members of objects in any order. So two trees
    that have the same form are the same. -/
theorem ofJson?_toJson (e : Expr) (h : e.Fits) :
    ofJson? e.toJson = some e ∧ (∀ j, e.toJson.Same j → ofJson? j = some e) ∧
      ∀ e' : Expr, e'.Fits → e'.toJson.Same e.toJson → e' = e := by
  have hread (e : Expr) (h : e.Fits) (j : Json) (hj : e.toJson.Same j) : ofJson? j = some e :=
    h.decode?_eq false hj
  refine ⟨hread e h _ (.refl _), hread e h, fun e' h' hsame => ?_⟩
  exact Option.some.inj ((hread e' h' _ hsame).symm.trans (hread e h _ (.refl _)))

/-- Numbers may be as great and as small as can be, and a span may end before it starts. The members
    of the root may be turned round, but not the bounds of a span. -/
theorem ofJson?_toJson_limits :
    let most : Span := ⟨0xffffffffffffffff, 0⟩
    let operands (s : Span) : List Expr := [.binary 0xffffffff "\"" (.number Number.least s)
      (.sequence "\n" [.number Number.greatest s] s) s]
    let e : Expr := .call "" (operands most) most
    let members := [("span", most.toJson), ("args", .arr (toJsonAll (operands most))),
      ("callee", .str ""), ("node", .str "CallExpression")]
    e.Fits ∧ ofJson? e.toJson = some e ∧ ofJson? (.obj members) = some e ∧
      ¬(Expr.call "" (operands ⟨0, 0xffffffffffffffff⟩) most).toJson.Same e.toJson := by
  intro most operands e members
  have hspan : most.Fits := ⟨by decide, by decide⟩
  have hoperands (s : Span) (hs : s.Fits) : ∀ e ∈ operands s, e.Fits := by
    have hgreatest : (Expr.number Number.greatest s).Fits := .number (by decide) hs
    refine List.forall_mem_singleton.2 (.binary (by decide) (.number (by decide) hs) ?_ hs)
    exact .sequence (List.forall_mem_singleton.2 hgreatest) hs
  have he : e.Fits := .call (hoperands most hspan) hspan
  obtain ⟨hread, hreads, hunique⟩ := ofJson?_toJson e he
  have hmembers : e.toJson.Same (.obj members) :=
    .of_perm (Json.nodup_keys rfl) (List.reverse_perm members)
  refine ⟨he, hread, hreads _ hmembers, fun hsame => ?_⟩
  have hturned := hunique _ (.call (hoperands _ ⟨by decide, by decide⟩) hspan) hsame
  simp [e, operands, most] at hturned

end Expr

end Frontend

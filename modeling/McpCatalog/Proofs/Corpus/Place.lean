import McpCatalog.Proofs.Corpus.Marking
/-!
# Where types are declared

A type is declared at a place: in a file, at the top or inside of messages. The place of a message
is the list of the positions that lead to it, that of the file first. The place of an enumeration is
that of the message or the file around it, and its position there.

Messages are taken in the order of their places, each behind all that is declared in it, and
enumerations in front of those that stand deeper. The pool of a request has the last type of each
name.

Results:
* `Listed.flatMap`: the places of several lists behind each other.
* `listed_messages`, `listed_enums`: the types of a request stand in the order of their places.
* `Listed.find?_reverse_eq_some_iff`: what is found from the end stands at the last place.
* `Corpus.exact_ofRequest`: what the pool of a request holds.
-/
namespace McpCatalog

/-! ## Places -/

/-- The positions that lead to a message, outermost first. -/
abbrev Place := List Nat

/-- A message stands behind those that are declared in it, and in front of those that come after it
and all that is declared in them. -/
inductive Place.Before : Place → Place → Prop
  | inside {i : Nat} {p : Place} : Before (i :: p) []
  | earlier {i j : Nat} {p q : Place} (h : i < j) : Before (i :: p) (j :: q)
  | within {i : Nat} {p q : Place} (h : Before p q) : Before (i :: p) (i :: q)

/-- An enumeration stands behind those of the messages and files around it, and of those with one
place around them the positions count. -/
def Place.EnumBefore (p q : Place × Nat) : Prop :=
  p.1 < q.1 ∨ p.1 = q.1 ∧ p.2 < q.2

theorem Place.Before.asymm {p q : Place} (h : Before p q) : ¬ Before q p := by
  induction h with
  | inside => exact fun h => nomatch h
  | earlier hlt =>
    intro h
    cases h with
    | earlier h => omega
    | within => omega
  | within _ ih =>
    intro h
    cases h with
    | earlier h => omega
    | within h => exact ih h

theorem Place.EnumBefore.asymm {p q : Place × Nat} (h : EnumBefore p q) : ¬ EnumBefore q p := by
  rintro (h' | ⟨heq, h'⟩)
  · rcases h with h | ⟨heq, -⟩
    · exact List.lt_asymm h h'
    · exact List.lt_irrefl _ (heq ▸ h')
  · rcases h with h | ⟨-, h⟩
    · exact List.lt_irrefl _ (heq ▸ h)
    · omega

theorem Place.EnumBefore.within {i : Nat} {p q : Place × Nat} (h : EnumBefore p q) :
    EnumBefore (i :: p.1, p.2) (i :: q.1, q.2) := by
  rcases h with h | ⟨heq, h⟩
  · exact .inl (List.cons_lt_cons_iff.2 (.inr ⟨rfl, h⟩))
  · exact .inr ⟨congrArg (i :: ·) heq, h⟩

theorem Place.EnumBefore.earlier {i j : Nat} {p q : Place × Nat} (h : i < j) :
    EnumBefore (i :: p.1, p.2) (j :: q.1, q.2) :=
  .inl (List.cons_lt_cons_iff.2 (.inl h))

/-! ## Lists in the order of places -/

section
variable {π π' α β : Type} {At At' : π → α → Prop} {R : π → π → Prop} {R' : π' → π' → Prop}
  {l l' : List α}

/-- The list has what stands at some place, once for each place, in the order of the places. -/
def Listed (At : π → α → Prop) (R : π → π → Prop) (l : List α) : Prop :=
  ∃ ps : List (π × α), ps.map (·.2) = l ∧ ps.Pairwise (fun x y => R x.1 y.1) ∧
    ∀ p a, (p, a) ∈ ps ↔ At p a

/-- At the place stands the element, and nothing stands behind it. -/
def LastAt (At : π → α → Prop) (R : π → π → Prop) (p : π) (a : α) : Prop :=
  At p a ∧ ∀ q b, At q b → q = p ∨ R q p

namespace Listed

theorem congr (h : Listed At R l) (hAt : ∀ p a, At p a ↔ At' p a) : Listed At' R l := by
  obtain ⟨ps, hl, hR, hmem⟩ := h
  exact ⟨ps, hl, hR, fun p a => (hmem p a).trans (hAt p a)⟩

theorem nil (h : ∀ p a, ¬ At p a) : Listed At R [] :=
  ⟨[], rfl, .nil, fun p a => by simpa using h p a⟩

theorem singleton (p : π) (a : α) : Listed (fun q b => q = p ∧ b = a) R [a] :=
  ⟨[(p, a)], rfl, List.pairwise_singleton _ _, fun q b => by simp⟩

theorem append (h : Listed At R l) (h' : Listed At' R l')
    (hR : ∀ p a q b, At p a → At' q b → R p q) :
    Listed (fun p a => At p a ∨ At' p a) R (l ++ l') := by
  obtain ⟨ps, rfl, hps, hmem⟩ := h
  obtain ⟨ps', rfl, hps', hmem'⟩ := h'
  refine ⟨ps ++ ps', List.map_append, List.pairwise_append.2 ⟨hps, hps', ?_⟩, fun p a => ?_⟩
  · intro x hx y hy
    exact hR _ _ _ _ ((hmem _ _).1 hx) ((hmem' _ _).1 hy)
  · rw [List.mem_append, hmem, hmem']

/-- The same list, with the places as they are seen from farther out. -/
theorem into (h : Listed At R l) {f : π → π'} (hf : ∀ p q, R p q → R' (f p) (f q)) :
    Listed (fun p a => ∃ q, p = f q ∧ At q a) R' l := by
  obtain ⟨ps, rfl, hps, hmem⟩ := h
  refine ⟨ps.map (Prod.map f id), by simp [Function.comp_def], ?_, fun p a => ?_⟩
  · exact List.pairwise_map.2 (hps.imp fun h => hf _ _ h)
  · simp only [List.mem_map, Prod.exists, Prod.map_apply, id, Prod.mk.injEq, hmem]
    constructor
    · rintro ⟨q, b, hq, rfl, rfl⟩
      exact ⟨q, rfl, hq⟩
    · rintro ⟨q, rfl, hq⟩
      exact ⟨q, a, hq, rfl, rfl⟩

/-- Lists behind each other, counted from a number on. -/
theorem flatMapFrom {At : β → π → α → Prop} {f : β → List α} {into : Nat → π → π'}
    (hin : ∀ i p q, R p q → R' (into i p) (into i q))
    (hlt : ∀ i j p q, i < j → R' (into i p) (into j q)) (xs : List β)
    (h : ∀ x ∈ xs, Listed (At x) R (f x)) (n : Nat) :
    Listed (fun p a => ∃ i x q, xs[i]? = some x ∧ p = into (n + i) q ∧ At x q a) R'
      (xs.flatMap f) := by
  induction xs generalizing n with
  | nil => exact nil (by simp)
  | cons x xs ih =>
    have hfirst := (h x List.mem_cons_self).into (hin n)
    have hrest := ih (fun y hy => h y (List.mem_cons_of_mem _ hy)) (n + 1)
    have hbefore : ∀ p a q b, (∃ p', p = into n p' ∧ At x p' a) →
        (∃ i y q', xs[i]? = some y ∧ q = into (n + 1 + i) q' ∧ At y q' b) → R' p q := by
      rintro _ _ _ _ ⟨p, rfl, -⟩ ⟨i, -, q, -, rfl, -⟩
      exact hlt _ _ _ _ (by omega)
    refine (hfirst.append hrest hbefore).congr fun p a => ?_
    constructor
    · rintro (⟨q, hp, hq⟩ | ⟨i, y, q, hy, hp, hq⟩)
      · exact ⟨0, x, q, rfl, hp, hq⟩
      · exact ⟨i + 1, y, q, by simpa using hy, by rw [hp]; congr 1; omega, hq⟩
    · rintro ⟨i, y, q, hy, hp, hq⟩
      cases i with
      | zero =>
        obtain rfl : x = y := by simpa using hy
        exact .inl ⟨q, hp, hq⟩
      | succ i =>
        exact .inr ⟨i, y, q, by simpa using hy, by rw [hp]; congr 1; omega, hq⟩

/-- Lists behind each other: the number of the list comes in front of the place in it. -/
theorem flatMap {At : β → π → α → Prop} {f : β → List α} (into : Nat → π → π') (xs : List β)
    (h : ∀ x ∈ xs, Listed (At x) R (f x)) (hin : ∀ i p q, R p q → R' (into i p) (into i q))
    (hlt : ∀ i j p q, i < j → R' (into i p) (into j q)) :
    Listed (fun p a => ∃ i x q, xs[i]? = some x ∧ p = into i q ∧ At x q a) R' (xs.flatMap f) := by
  simpa using flatMapFrom hin hlt xs h 0

section
variable {test : α → Bool}

/-- Only one element is the last that passes a test. -/
theorem lastAt_unique (h : Listed At R l) (hR : ∀ p q, R p q → ¬ R q p) {p q : π} {a b : α}
    (ha : LastAt (fun p a => At p a ∧ test a = true) R p a)
    (hb : LastAt (fun p a => At p a ∧ test a = true) R q b) : a = b := by
  obtain ⟨ps, -, hps, hmem⟩ := h
  have hplaces : (ps.map (·.1)).Nodup := by
    refine List.pairwise_map.2 (hps.imp fun {x y} hxy heq => ?_)
    exact hR _ _ hxy (heq ▸ hxy)
  have hqp : q = p := by
    rcases ha.2 q b hb.1 with hqp | hqp
    · exact hqp
    · rcases hb.2 p a ha.1 with hpq | hpq
      · exact hpq.symm
      · exact absurd hpq (hR _ _ hqp)
  have heq := List.inj_on_of_nodup_map hplaces ((hmem p a).2 ha.1.1) ((hmem q b).2 hb.1.1) hqp.symm
  exact congrArg Prod.snd heq

/-- From the end of the list the last element that passes a test is found. -/
theorem lastAt_of_find?_reverse (h : Listed At R l) {a : α} (ha : l.reverse.find? test = some a) :
    ∃ p, LastAt (fun p a => At p a ∧ test a = true) R p a := by
  obtain ⟨ps, rfl, hps, hmem⟩ := h
  rw [← List.map_reverse, List.find?_map] at ha
  obtain ⟨⟨p, a'⟩, hx, rfl⟩ := Option.map_eq_some_iff.1 ha
  obtain ⟨hpass, behind, before, hsplit, hbehind⟩ := List.find?_eq_some_iff_append.1 hx
  have hsplit : ps = before.reverse ++ (p, a') :: behind.reverse := by
    rw [← List.reverse_inj, hsplit]
    simp
  refine ⟨p, ⟨(hmem _ _).1 (by simp [hsplit]), hpass⟩, fun q b hb => ?_⟩
  have hqb : (q, b) ∈ before.reverse ++ (p, a') :: behind.reverse := hsplit ▸ (hmem q b).2 hb.1
  rcases List.mem_append.1 hqb with hqb | hqb
  · exact .inr ((List.pairwise_append.1 (hsplit ▸ hps)).2.2 _ hqb _ List.mem_cons_self)
  · rcases List.mem_cons.1 hqb with heq | hqb
    · exact .inl (congrArg Prod.fst heq)
    · have hfail := hbehind _ (List.mem_reverse.1 hqb)
      simp [hb.2] at hfail

theorem find?_reverse_eq_some_iff (h : Listed At R l) (hR : ∀ p q, R p q → ¬ R q p) {a : α} :
    l.reverse.find? test = some a ↔ ∃ p, LastAt (fun p a => At p a ∧ test a = true) R p a := by
  constructor
  · exact h.lastAt_of_find?_reverse
  · rintro ⟨p, hp⟩
    have hmem : a ∈ l := by
      obtain ⟨ps, rfl, -, hmem⟩ := h
      exact List.mem_map_of_mem ((hmem p a).2 hp.1.1)
    have hsome : (l.reverse.find? test).isSome = true :=
      List.find?_isSome.2 ⟨a, List.mem_reverse.2 hmem, hp.1.2⟩
    obtain ⟨b, hb⟩ := Option.isSome_iff_exists.1 hsome
    obtain ⟨q, hq⟩ := h.lastAt_of_find?_reverse hb
    rw [hb, h.lastAt_unique hR hp hq]

theorem find?_reverse_isSome_iff (h : Listed At R l) :
    (l.reverse.find? test).isSome = true ↔ ∃ p a, At p a ∧ test a = true := by
  obtain ⟨ps, rfl, -, hmem⟩ := h
  simp only [List.find?_isSome, List.mem_reverse, List.mem_map, Prod.exists, exists_eq_right, hmem]
  constructor
  · rintro ⟨a, ⟨p, hp⟩, ha⟩
    exact ⟨p, a, hp, ha⟩
  · rintro ⟨p, a, hp, ha⟩
    exact ⟨a, ⟨p, hp⟩, ha⟩

end

/-- Of the elements of one name the last that may count is found. -/
theorem find?_named_iff {At : π → String → β → Prop} {l : List (String × β)}
    (h : Listed (fun p x => At p x.1 x.2) R l) (hR : ∀ p q, R p q → ¬ R q p) (counts : β → Bool)
    {n : String} {x : String × β} :
    l.reverse.find? (fun x => counts x.2 && x.1 == n) = some x ↔
      x.1 = n ∧ ∃ p, LastAt (fun p b => At p n b ∧ counts b = true) R p x.2 := by
  rw [h.find?_reverse_eq_some_iff hR]
  simp only [LastAt, Bool.and_eq_true, beq_iff_eq]
  constructor
  · rintro ⟨p, ⟨hp, hx, rfl⟩, hlast⟩
    exact ⟨rfl, p, ⟨hp, hx⟩, fun q b hb => hlast q (x.1, b) ⟨hb.1, hb.2, rfl⟩⟩
  · rintro ⟨rfl, p, ⟨hp, hx⟩, hlast⟩
    refine ⟨p, ⟨hp, hx, rfl⟩, fun q y hy => hlast q y.2 ⟨?_, hy.2.1⟩⟩
    exact hy.2.2 ▸ hy.1

end Listed
end

/-! ## Declarations at their places -/

/-- What holds of a message if it holds of those declared in it holds of all messages. -/
theorem MessageDecl.induct {P : MessageDecl → Prop} (h : ∀ d, (∀ d' ∈ d.nested, P d') → P d)
    (d : MessageDecl) : P d :=
  @MessageDecl.rec P (fun ds => ∀ d ∈ ds, P d) (fun _ _ _ _ _ _ ih => h _ ih)
    (fun _ hd => nomatch hd) (fun _ _ hd hrest => List.forall_mem_cons.2 ⟨hd, hrest⟩) d

namespace MessageDecl

/-- The full name of the message in a scope. -/
def fullName (scope : String) (m : MessageDecl) : String :=
  qualify scope (m.name.getD "")

/-- In a message of a scope, itself included, a message is declared at a place, seen from the outer
one, and under a full name. -/
inductive DeclaredAt : String → MessageDecl → Place → String → MessageDecl → Prop
  | self {scope : String} {m : MessageDecl} : DeclaredAt scope m [] (m.fullName scope) m
  | inside {scope : String} {m m' : MessageDecl} {i : Nat} {p : Place} {n : String}
    {d : MessageDecl} (hm : m.nested[i]? = some m') (hd : DeclaredAt (m.fullName scope) m' p n d) :
    DeclaredAt scope m (i :: p) n d

/-- In a message of a scope an enumeration is declared at a place and under a full name. -/
def EnumDeclaredAt (scope : String) (m : MessageDecl) (p : Place × Nat) (n : String)
    (e : EnumDecl) : Prop :=
  ∃ n' d, DeclaredAt scope m p.1 n' d ∧ d.enums[p.2]? = some e ∧ n = qualify n' (e.name.getD "")

theorem declaredAt_iff {scope : String} {m : MessageDecl} {p : Place} {n : String}
    {d : MessageDecl} : DeclaredAt scope m p n d ↔
      (∃ i m' q, m.nested[i]? = some m' ∧ p = i :: q ∧ DeclaredAt (m.fullName scope) m' q n d) ∨
        p = [] ∧ n = m.fullName scope ∧ d = m := by
  constructor
  · intro h
    cases h with
    | self => exact .inr ⟨rfl, rfl, rfl⟩
    | inside hm hd => exact .inl ⟨_, _, _, hm, rfl, hd⟩
  · rintro (⟨i, m', q, hm, rfl, hd⟩ | ⟨rfl, rfl, rfl⟩)
    · exact .inside hm hd
    · exact .self

theorem declared_eq (scope : String) (m : MessageDecl) : m.declared scope =
    m.nested.flatMap (declared (m.fullName scope)) ++ [(m.fullName scope, m)] := by
  cases m
  rw [declared, declaredIn_eq]
  rfl

theorem declaredEnums_eq (scope : String) (m : MessageDecl) : m.declaredEnums scope =
    enumsOf (m.fullName scope) m.enums ++ m.nested.flatMap (declaredEnums (m.fullName scope)) := by
  cases m
  rw [declaredEnums, enumsInMessages_eq]
  rfl

/-- The messages in a message, itself included, stand in the order of their places. -/
theorem listed_declared (scope : String) (m : MessageDecl) :
    Listed (fun p x => DeclaredAt scope m p x.1 x.2) Place.Before (m.declared scope) := by
  induction m using induct generalizing scope with
  | h m ih =>
    have hnested := Listed.flatMap List.cons m.nested (fun m' hm' => ih m' hm' (m.fullName scope))
      (fun _ _ _ => Place.Before.within) (fun _ _ _ _ => Place.Before.earlier)
    have hself := Listed.singleton (R := Place.Before) [] (m.fullName scope, m)
    rw [declared_eq]
    refine (hnested.append hself ?_).congr fun p x => ?_
    · rintro _ _ _ _ ⟨i, -, p, -, rfl, -⟩ ⟨rfl, -⟩
      exact .inside
    · rw [declaredAt_iff, Prod.ext_iff]

theorem listed_enumsOf (scope : String) (es : List EnumDecl) :
    Listed (fun p x => p.1 = [] ∧ es[p.2]? = some x.2 ∧ x.1 = qualify scope (x.2.name.getD ""))
      Place.EnumBefore (enumsOf scope es) := by
  have hlt (i j : Nat) (_ _ : Unit) (h : i < j) : Place.EnumBefore ([], i) ([], j) := .inr ⟨rfl, h⟩
  have hlisted := Listed.flatMap (R := fun _ _ => False) (fun i (_ : Unit) => ([], i)) es
    (fun e _ => Listed.singleton () (qualify scope (e.name.getD ""), e)) (fun _ _ _ => False.elim)
    hlt
  rw [enumsOf, List.map_eq_flatMap]
  refine hlisted.congr fun p x => ?_
  constructor
  · rintro ⟨i, e, -, he, rfl, -, rfl⟩
    exact ⟨rfl, he, rfl⟩
  · rintro ⟨hp, he, hn⟩
    exact ⟨p.2, x.2, (), he, Prod.ext hp rfl, rfl, Prod.ext hn rfl⟩

/-- An enumeration of the message itself, or of one that is declared in it. -/
theorem enumDeclaredAt_iff {scope : String} {m : MessageDecl} {p : Place × Nat} {n : String}
    {e : EnumDecl} : EnumDeclaredAt scope m p n e ↔
      (p.1 = [] ∧ m.enums[p.2]? = some e ∧ n = qualify (m.fullName scope) (e.name.getD "")) ∨
      ∃ i m' q, m.nested[i]? = some m' ∧ p = (i :: q.1, q.2) ∧
        EnumDeclaredAt (m.fullName scope) m' q n e := by
  constructor
  · rintro ⟨n', d, hd, he, hn⟩
    rcases declaredAt_iff.1 hd with ⟨i, m', q, hm, hp, hd⟩ | ⟨hp, rfl, rfl⟩
    · exact .inr ⟨i, m', (q, p.2), hm, Prod.ext hp rfl, n', d, hd, he, hn⟩
    · exact .inl ⟨hp, he, hn⟩
  · rintro (⟨hp, he, hn⟩ | ⟨i, m', q, hm, rfl, n', d, hd, he, hn⟩)
    · exact ⟨_, m, declaredAt_iff.2 (.inr ⟨hp, rfl, rfl⟩), he, hn⟩
    · exact ⟨n', d, .inside hm hd, he, hn⟩

/-- So do the enumerations in a message. -/
theorem listed_declaredEnums (scope : String) (m : MessageDecl) :
    Listed (fun p x => EnumDeclaredAt scope m p x.1 x.2) Place.EnumBefore
      (m.declaredEnums scope) := by
  induction m using induct generalizing scope with
  | h m ih =>
    have hnested := Listed.flatMap (fun i (p : Place × Nat) => (i :: p.1, p.2)) m.nested
      (fun m' hm' => ih m' hm' (m.fullName scope)) (fun _ _ _ => Place.EnumBefore.within)
      (fun _ _ _ _ => Place.EnumBefore.earlier)
    rw [declaredEnums_eq]
    refine ((listed_enumsOf (m.fullName scope) m.enums).append hnested ?_).congr fun p x => ?_
    · rintro p _ _ _ ⟨hp, -⟩ ⟨i, -, q, -, rfl, -⟩
      exact .inl (by simp [hp])
    · rw [enumDeclaredAt_iff]

end MessageDecl

/-! ## Declarations of a request -/

namespace Request

variable {r : Request}

/-- A message is declared in a file of the request. -/
inductive DeclaresMessage (r : Request) : Place → String → MessageDecl → Prop
  | intro {i j : Nat} {f : FileDecl} {m : MessageDecl} {p : Place} {n : String} {d : MessageDecl}
    (hf : r.files[i]? = some f) (hm : f.messages[j]? = some m) (hd : m.DeclaredAt f.scope p n d) :
    DeclaresMessage r (i :: j :: p) n d

/-- An enumeration is declared at the top of a file of the request, or in a message. -/
inductive DeclaresEnum (r : Request) : Place × Nat → String → EnumDecl → Prop
  | inFile {i k : Nat} {f : FileDecl} {e : EnumDecl} (hf : r.files[i]? = some f)
    (he : f.enums[k]? = some e) : DeclaresEnum r ([i], k) (qualify f.scope (e.name.getD "")) e
  | inMessage {p : Place} {k : Nat} {n : String} {d : MessageDecl} {e : EnumDecl}
    (hd : r.DeclaresMessage p n d) (he : d.enums[k]? = some e) :
    DeclaresEnum r (p, k) (qualify n (e.name.getD "")) e

theorem listed_messages (r : Request) :
    Listed (fun p x => r.DeclaresMessage p x.1 x.2) Place.Before r.messages := by
  have hfile (f : FileDecl) := Listed.flatMap List.cons f.messages
    (fun m _ => m.listed_declared f.scope)
    (fun _ _ _ => Place.Before.within) (fun _ _ _ _ => Place.Before.earlier)
  have hfiles := Listed.flatMap List.cons r.files (fun f _ => hfile f)
    (fun _ _ _ => Place.Before.within) (fun _ _ _ _ => Place.Before.earlier)
  refine hfiles.congr fun p x => ?_
  constructor
  · rintro ⟨i, f, _, hf, rfl, j, m, q, hm, rfl, hd⟩
    exact .intro hf hm hd
  · intro h
    cases h with
    | intro hf hm hd => exact ⟨_, _, _, hf, rfl, _, _, _, hm, rfl, hd⟩

theorem declaresEnum_iff {p : Place × Nat} {n : String} {e : EnumDecl} :
    r.DeclaresEnum p n e ↔ ∃ i f q, r.files[i]? = some f ∧ p = (i :: q.1, q.2) ∧
      ((q.1 = [] ∧ f.enums[q.2]? = some e ∧ n = qualify f.scope (e.name.getD "")) ∨
        ∃ j m q', f.messages[j]? = some m ∧ q = (j :: q'.1, q'.2) ∧
          m.EnumDeclaredAt f.scope q' n e) := by
  constructor
  · intro h
    cases h with
    | inFile hf he => exact ⟨_, _, ([], _), hf, rfl, .inl ⟨rfl, he, rfl⟩⟩
    | inMessage hd he =>
      cases hd with
      | intro hf hm hd =>
        exact ⟨_, _, (_ :: _, _), hf, rfl, .inr ⟨_, _, (_, _), hm, rfl, _, _, hd, he, rfl⟩⟩
  · rintro ⟨i, f, q, hf, rfl, ⟨hq, he, rfl⟩ | ⟨j, m, q, hm, rfl, n', d, hd, he, rfl⟩⟩
    · rw [hq]
      exact .inFile hf he
    · exact .inMessage (.intro hf hm hd) he

theorem listed_enums (r : Request) :
    Listed (fun p x => r.DeclaresEnum p x.1 x.2) Place.EnumBefore r.enums := by
  have hmessages (f : FileDecl) := Listed.flatMap (fun i (p : Place × Nat) => (i :: p.1, p.2))
    f.messages (fun m _ => m.listed_declaredEnums f.scope)
    (fun _ _ _ => Place.EnumBefore.within) (fun _ _ _ _ => Place.EnumBefore.earlier)
  have hfile (f : FileDecl) := (MessageDecl.listed_enumsOf f.scope f.enums).append (hmessages f)
    (by
      rintro p _ _ _ ⟨hp, -⟩ ⟨i, -, q, -, rfl, -⟩
      exact .inl (by simp [hp]))
  have hfiles := Listed.flatMap (fun i (p : Place × Nat) => (i :: p.1, p.2)) r.files
    (fun f _ => hfile f) (fun _ _ _ => Place.EnumBefore.within)
    (fun _ _ _ _ => Place.EnumBefore.earlier)
  exact hfiles.congr fun p x => declaresEnum_iff.symm

end Request

/-! ## The pool -/

/-- A message has the fields that a declaration lists, in order, under their names and their full
names. -/
structure MessageDecl.Describes (d : MessageDecl) (n : String) (m : Message) : Prop where
  fullName : m.fullName = n
  names : m.fields.map (·.name) = d.fields.map (·.simpleName)
  fullNames : m.fields.map (·.fullName)
    = d.fields.map fun f => if n = "" then f.simpleName else n ++ "." ++ f.simpleName

/-- The pool holds exactly the types that a request declares; of those with one name it holds the
last. -/
structure Pool.Exact (pool : Pool) (r : Request) : Prop where
  message_isSome : ∀ n, (pool.message? n).isSome = true ↔
    ∃ p d, r.DeclaresMessage p n d ∧ d.isMapEntry = false
  message : ∀ n m, pool.message? n = some m ↔ ∃ p d,
    LastAt (fun p d => r.DeclaresMessage p n d ∧ d.isMapEntry = false) Place.Before p d ∧
      m = Corpus.message r.entries (n, d) ∧ d.Describes n m
  messageCount : ∃ names : List String, names.Nodup ∧ names.length = pool.messageCount ∧
    ∀ n, n ∈ names ↔ ∃ p d, r.DeclaresMessage p n d ∧ d.isMapEntry = false
  enum_isSome : ∀ n, (pool.enum? n).isSome = true ↔ ∃ p e, r.DeclaresEnum p n e
  enum : ∀ n e, pool.enum? n = some e ↔ ∃ p d,
    LastAt (fun p d => r.DeclaresEnum p n d) Place.EnumBefore p d ∧
      e = ⟨n, d.values.map (·.simpleName)⟩

namespace Corpus

variable {r : Request} {n : String}

theorem describes_message (entries : Dict MessageDecl) (n : String) (d : MessageDecl) :
    d.Describes n (message entries (n, d)) := by
  refine ⟨rfl, ?_, ?_⟩
  · simp [message, name_fieldOf]
  · simp [message, fieldOf_fullName, FieldDecl.fullName, qualify, FieldDecl.simpleName]

/-- The last of the messages that do not stand for the entries of a map. -/
theorem message?_poolOf_eq (r : Request) (n : String) : (poolOf r).message? n =
    (r.messages.reverse.find? fun m => !m.2.isMapEntry && m.1 == n).map (message r.entries) := by
  have htest : (fun m : Message => m.fullName == n) ∘ message r.entries = fun m => m.1 == n := rfl
  rw [poolOf, Pool.message?_ofTypes, ← List.map_reverse, List.find?_map, htest, Request.ordinary,
    ← List.filter_reverse, List.find?_filter]
  simp only [Bool.decide_and, Bool.decide_eq_true]

theorem enum?_poolOf_eq (r : Request) (n : String) :
    (poolOf r).enum? n = (r.enums.reverse.find? fun e => true && e.1 == n).map enumType := by
  have htest : (fun e : EnumType => e.fullName == n) ∘ enumType = fun e => e.1 == n := rfl
  simp only [poolOf, Pool.enum?_ofTypes, ← List.map_reverse, List.find?_map, htest, Bool.true_and]

theorem message?_poolOf_isSome_iff : ((poolOf r).message? n).isSome = true ↔
    ∃ p d, r.DeclaresMessage p n d ∧ d.isMapEntry = false := by
  rw [message?_poolOf_eq, Option.isSome_map, r.listed_messages.find?_reverse_isSome_iff]
  simp

theorem enum?_poolOf_isSome_iff :
    ((poolOf r).enum? n).isSome = true ↔ ∃ p e, r.DeclaresEnum p n e := by
  rw [enum?_poolOf_eq, Option.isSome_map, r.listed_enums.find?_reverse_isSome_iff]
  simp

theorem message?_poolOf_iff {m : Message} : (poolOf r).message? n = some m ↔ ∃ p d,
    LastAt (fun p d => r.DeclaresMessage p n d ∧ d.isMapEntry = false) Place.Before p d ∧
      m = message r.entries (n, d) := by
  simp only [message?_poolOf_eq, Option.map_eq_some_iff, Bool.not_eq_true',
    r.listed_messages.find?_named_iff (fun _ _ => Place.Before.asymm) (!·.isMapEntry)]
  constructor
  · rintro ⟨⟨_, d⟩, ⟨rfl, p, hd⟩, rfl⟩
    exact ⟨p, d, hd, rfl⟩
  · rintro ⟨p, d, hd, rfl⟩
    exact ⟨(n, d), ⟨rfl, p, hd⟩, rfl⟩

theorem enum?_poolOf_iff {e : EnumType} : (poolOf r).enum? n = some e ↔ ∃ p d,
    LastAt (fun p d => r.DeclaresEnum p n d) Place.EnumBefore p d ∧
      e = ⟨n, d.values.map (·.simpleName)⟩ := by
  simp only [enum?_poolOf_eq, Option.map_eq_some_iff, and_true,
    r.listed_enums.find?_named_iff (fun _ _ => Place.EnumBefore.asymm) (fun _ => true)]
  constructor
  · rintro ⟨⟨_, d⟩, ⟨rfl, p, hd⟩, rfl⟩
    exact ⟨p, d, hd, rfl⟩
  · rintro ⟨p, d, hd, rfl⟩
    exact ⟨(n, d), ⟨rfl, p, hd⟩, rfl⟩

/-- **The pool of a request.** A message is in the pool if it is declared somewhere in the request
and does not stand for the entries of a map. Of those with one name it is the last, with the fields
of its declaration; the same goes for enumerations. -/
theorem exact_ofRequest (r : Request) : (ofRequest r).pool.Exact r where
  message_isSome _ := message?_poolOf_isSome_iff
  message n m := by
    refine message?_poolOf_iff.trans ?_
    constructor
    · rintro ⟨p, d, hd, rfl⟩
      exact ⟨p, d, hd, rfl, describes_message r.entries n d⟩
    · rintro ⟨p, d, hd, hm, -⟩
      exact ⟨p, d, hd, hm⟩
  messageCount := by
    refine ⟨_, (poolOf r).messages.nodup_keys, List.length_map _, fun n => ?_⟩
    rw [Dict.mem_keys_iff]
    exact message?_poolOf_isSome_iff
  enum_isSome _ := enum?_poolOf_isSome_iff
  enum _ _ := enum?_poolOf_iff

end Corpus
end McpCatalog

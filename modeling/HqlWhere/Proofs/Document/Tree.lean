import HqlWhere.Proofs.Document.Raw

/-!
# Trees in documents are read node by node

What the reader of trees makes of a node is told by what it makes of the parts of the node, right or
wrong, one lemma for each kind of node.  Together they give what it makes of any tree.

* `Expr.read_brace`      a node in any text, by what the reader of its content makes of it;
* `Expr.read_leaf`, `Expr.read_pair`, `Expr.read_not`   one written node;
* `RawExpr.decode`       a tree with its leaves understood, or the first fault of a leaf;
                         `RawExpr.decode_eq_ok` tells when it is understood;
* `RawExpr.read_write`   a tree is read as `decode` tells, inside brackets that leave room for it.
-/

namespace HqlWhere

open Json

theorem opens_tagged (tag : String) (j : Json) (k : List Char) : Opens ((tagged tag j).write k) :=
  ⟨'{', _, rfl, rfl, by decide⟩

namespace Expr

/-- The content of a node, inside which `inside` brackets may be open at once. -/
def readContent (inside : Nat) : Kind → Reader Expr
  | .leaf, s => Predicate.read inside s >>= fun x => .ok (leaf x.1, x.2)
  | .and, s =>
    readPair .and (match inside with | 0 => none | room + 1 => some (read room)) s >>= fun x =>
      .ok (and x.1.1 x.1.2, x.2)
  | .or, s =>
    readPair .or (match inside with | 0 => none | room + 1 => some (read room)) s >>= fun x =>
      .ok (or x.1.1 x.1.2, x.2)
  | .not, s => read inside s >>= fun x => .ok (not x.1, x.2)

theorem read_brace {inside : Nat} {s t : List Char} (front : skipSpace s = '{' :: t) :
    read (inside + 1) s = (readTag tags t >>= fun x => readContent inside x.1 x.2 >>= fun y =>
      closeTagged y.2 >>= fun r => .ok (y.1, r)) := by
  rw [read.eq_def]
  dsimp only
  rw [front]
  show (readTag tags t >>= _) = _
  congr 1
  funext ⟨kind, t⟩
  cases kind
  all_goals
    dsimp only [readContent]
    rw [bind_assoc]
    rfl

variable {budget : Nat} {k : List Char}

theorem read_leaf {j : Json} {x : Except Fault Predicate}
    (reads : ∀ k, Predicate.read budget (j.write k) = x.map (·, k)) :
    read (budget + 1) ((tagged "predicate" j).write k) = (x.map leaf).map (·, k) := by
  have known : tagOf tags "predicate" = .ok Kind.leaf := rfl
  rw [read.eq_def]
  show (readTag tags (writeString "predicate" (':' :: j.write ('}' :: k))) >>= _) = _
  rw [readTag_write known, ok_bind]
  dsimp only
  rw [reads]
  cases x <;> rfl

theorem read_not {j : Json} {x : Except Fault Expr}
    (reads : ∀ k, read budget (j.write k) = x.map (·, k)) :
    read (budget + 1) ((tagged "not" j).write k) = (x.map not).map (·, k) := by
  have known : tagOf tags "not" = .ok Kind.not := rfl
  rw [read.eq_def]
  show (readTag tags (writeString "not" (':' :: j.write ('}' :: k))) >>= _) = _
  rw [readTag_write known, ok_bind]
  dsimp only
  rw [reads]
  cases x <;> rfl

section
variable {l r : Json} {x y : Except Fault Expr} (opensLeft : ∀ k, Opens (l.write k))
  (opensRight : ∀ k, Opens (r.write k)) (left : ∀ k, read budget (l.write k) = x.map (·, k))
  (right : ∀ k, read budget (r.write k) = y.map (·, k))
include opensLeft opensRight left right

theorem readPair_write (kind : Kind) (k : List Char) :
    readPair kind (some (read budget)) ((array [l, r]).write k) =
      (x >>= fun x => y >>= fun y => (Except.ok (x, y) : Except Fault (Expr × Expr))).map
        (·, k) := by
  show (Items.next true (l.write (',' :: r.write (']' :: k))) >>= _) = _
  rw [Items.next_first (opensLeft _), ok_bind]
  dsimp only
  rw [left]
  cases x with
  | error f => rfl
  | ok x =>
    show (Items.next false (',' :: r.write (']' :: k)) >>= _) = _
    rw [Items.next_comma (opensRight _), ok_bind]
    dsimp only
    rw [right]
    cases y <;> rfl

theorem read_and :
    read (budget + 2) ((tagged "and" (array [l, r])).write k) =
      (x >>= fun x => y >>= fun y => (Except.ok (and x y) : Except Fault Expr)).map (·, k) := by
  have known : tagOf tags "and" = .ok Kind.and := rfl
  rw [read.eq_def]
  show (readTag tags (writeString "and" (':' :: (array [l, r]).write ('}' :: k))) >>= _) = _
  rw [readTag_write known, ok_bind]
  dsimp only
  rw [readPair_write opensLeft opensRight left right]
  cases x with
  | error f => rfl
  | ok x => cases y <;> rfl

theorem read_or :
    read (budget + 2) ((tagged "or" (array [l, r])).write k) =
      (x >>= fun x => y >>= fun y => (Except.ok (or x y) : Except Fault Expr)).map (·, k) := by
  have known : tagOf tags "or" = .ok Kind.or := rfl
  rw [read.eq_def]
  show (readTag tags (writeString "or" (':' :: (array [l, r]).write ('}' :: k))) >>= _) = _
  rw [readTag_write known, ok_bind]
  dsimp only
  rw [readPair_write opensLeft opensRight left right]
  cases x with
  | error f => rfl
  | ok x => cases y <;> rfl

end

/-! ## nodes without room for their brackets -/

theorem read_tagged_zero (tag : String) (j : Json) :
    read 0 ((tagged tag j).write k) = .error (.malformed .tooDeep) := by
  rw [read.eq_def]
  rfl

theorem read_pair_one {tag : String} (l : List Json) (pair : tag = "and" ∨ tag = "or") :
    read 1 ((tagged tag (array l)).write k) = .error (.malformed .tooDeep) := by
  have known : ∃ kind, tagOf tags tag = .ok kind ∧ (kind = .and ∨ kind = .or) := by
    rcases pair with rfl | rfl
    · exact ⟨.and, rfl, .inl rfl⟩
    · exact ⟨.or, rfl, .inr rfl⟩
  obtain ⟨kind, known, pair⟩ := known
  rw [read.eq_def]
  show (readTag tags (writeString tag (':' :: (array l).write ('}' :: k))) >>= _) = _
  rw [readTag_write known, ok_bind, write_array]
  rcases pair with rfl | rfl <;> rfl

end Expr

/-! ## heights -/

theorem height_tagged (tag : String) (j : Json) : (tagged tag j).height = 1 + j.height := by
  rw [tagged, height, heightMembers, heightMembers, Nat.max_zero]

theorem height_pair (l r : Json) : (array [l, r]).height = 1 + max l.height r.height := by
  rw [height, heightItems, heightItems, heightItems, Nat.max_zero]

theorem RawLeaf.height_toJson (l : RawLeaf) :
    l.toJson.height = 1 + max l.path.toJson.height (1 + heightItems l.values) := by
  have name : (Json.string l.operator).height = 0 := rfl
  have list : (array l.values).height = 1 + heightItems l.values := by rw [height]
  rw [toJson, height, heightMembers, heightMembers, heightMembers, heightMembers, name, list,
    Nat.max_zero, Nat.zero_max]

/-! ## whole trees -/

theorem mapM_decode_eq_ok {js : List Json} {vs : List Value} :
    js.mapM Value.decode = .ok vs ↔ List.Forall₂ Value.Decodes js vs := by
  refine ⟨fun h => ?_, mapM_decode⟩
  induction js generalizing vs with
  | nil =>
    obtain rfl := Except.ok.inj h
    exact .nil
  | cons j js ih =>
    rw [List.mapM_cons] at h
    obtain ⟨v, head, h⟩ := bind_eq_ok.mp h
    obtain ⟨ws, tail, h⟩ := bind_eq_ok.mp h
    obtain rfl := Except.ok.inj h
    exact .cons head (ih tail)

namespace RawLeaf

/-- The leaf understood, or the first fault; the values are looked at last. -/
def decode (l : RawLeaf) : Except Fault Predicate := do
  let path ← l.path.path.mapError fun f => .mismatch (.filter (.path f))
  let operator ← (Operator.ofText l.operator).mapError fun f => .mismatch (.filter (.operator f))
  let values ← l.values.mapM Value.decode
  pure ⟨path, operator, values⟩

theorem decode_eq_ok {l : RawLeaf} {p : Predicate} : l.decode = .ok p ↔ l.Tells p := by
  unfold decode
  constructor
  · intro h
    obtain ⟨path, hp, h⟩ := bind_eq_ok.mp h
    obtain ⟨operator, ho, h⟩ := bind_eq_ok.mp h
    obtain ⟨values, hv, h⟩ := bind_eq_ok.mp h
    obtain rfl := Except.ok.inj h
    exact ⟨mapError_eq_ok.mp hp, mapError_eq_ok.mp ho, mapM_decode_eq_ok.mp hv⟩
  · rintro ⟨hp, ho, hv⟩
    rw [hp, ho, mapM_decode hv]
    rfl

theorem read_of_fits {l : RawLeaf} (values : ∀ j ∈ l.values, ∃ v, Value.Decodes j v) {budget : Nat}
    (fits : l.toJson.height ≤ budget) (k : List Char) :
    Predicate.read budget (l.toJson.write k) = l.decode.map (·, k) := by
  obtain ⟨vs, all⟩ := forall_decodes_iff.mp values
  rw [l.height_toJson] at fits
  obtain ⟨inside, rfl⟩ : ∃ n, budget = n + 2 := ⟨budget - 2, by omega⟩
  have path := l.path.read_write (by omega : l.path.toJson.height ≤ inside + 1)
  have found : ∀ k, Predicate.readValues (inside + 1) ((array l.values).write k) =
      (l.values.mapM Value.decode).map (·, k) := by
    intro k
    rw [readValues_write all (by omega), mapM_decode all]
    rfl
  exact l.read_write _ _ path found k

end RawLeaf

namespace RawExpr

/-- The tree with its leaves understood, or the first fault of a leaf. -/
def decode : RawExpr → Except Fault Expr
  | leaf l => l.decode.map .leaf
  | and l r => do
    let x ← l.decode
    let y ← r.decode
    pure (.and x y)
  | or l r => do
    let x ← l.decode
    let y ← r.decode
    pure (.or x y)
  | not u => u.decode.map .not

theorem decode_eq_ok {u : RawExpr} {e : Expr} : u.decode = .ok e ↔ u.Tells e := by
  constructor
  · intro h
    induction u generalizing e with
    | leaf l =>
      rw [decode] at h
      cases found : l.decode with
      | error f =>
        rw [found] at h
        cases h
      | ok p =>
        rw [found] at h
        obtain rfl := Except.ok.inj h
        exact .leaf (RawLeaf.decode_eq_ok.mp found)
    | and l r ihl ihr =>
      obtain ⟨x, hx, h⟩ := bind_eq_ok.mp h
      obtain ⟨y, hy, h⟩ := bind_eq_ok.mp h
      obtain rfl := Except.ok.inj h
      exact .and (ihl hx) (ihr hy)
    | or l r ihl ihr =>
      obtain ⟨x, hx, h⟩ := bind_eq_ok.mp h
      obtain ⟨y, hy, h⟩ := bind_eq_ok.mp h
      obtain rfl := Except.ok.inj h
      exact .or (ihl hx) (ihr hy)
    | not u ih =>
      rw [decode] at h
      cases found : u.decode with
      | error f =>
        rw [found] at h
        cases h
      | ok p =>
        rw [found] at h
        obtain rfl := Except.ok.inj h
        exact .not (ih found)
  · intro h
    induction h with
    | leaf tells => rw [decode, RawLeaf.decode_eq_ok.mpr tells]; rfl
    | and _ _ ihl ihr => rw [decode, ihl, ihr]; rfl
    | or _ _ ihl ihr => rw [decode, ihl, ihr]; rfl
    | not _ ih => rw [decode, ih]; rfl

theorem opens (u : RawExpr) (k : List Char) : Opens (u.toJson.write k) := by
  cases u <;> exact opens_tagged _ _ k

/-- All values of the tree are right by themselves. -/
def ValuesDecode (u : RawExpr) : Prop :=
  ∀ l ∈ u.leaves, ∀ j ∈ l.values, ∃ v, Value.Decodes j v

/-- **A tree is read leaf by leaf**, inside brackets that leave room for its own. -/
theorem read_write {u : RawExpr} (values : u.ValuesDecode) {budget : Nat}
    (fits : u.toJson.height ≤ budget) (k : List Char) :
    Expr.read budget (u.toJson.write k) = u.decode.map (·, k) := by
  induction u generalizing budget k with
  | leaf l =>
    rw [toJson, height_tagged] at fits
    obtain ⟨inside, rfl, room⟩ := exists_inside fits
    have decodes := values l (List.mem_singleton.mpr rfl)
    exact Expr.read_leaf fun k => l.read_of_fits decodes room k
  | and l r ihl ihr =>
    rw [toJson, height_tagged, height_pair] at fits
    obtain ⟨inside, rfl⟩ : ∃ n, budget = n + 2 := ⟨budget - 2, by omega⟩
    obtain ⟨valuesLeft, valuesRight⟩ := List.forall_mem_append.mp values
    have left := ihl valuesLeft (by omega : l.toJson.height ≤ inside)
    have right := ihr valuesRight (by omega : r.toJson.height ≤ inside)
    exact Expr.read_and l.opens r.opens left right
  | or l r ihl ihr =>
    rw [toJson, height_tagged, height_pair] at fits
    obtain ⟨inside, rfl⟩ : ∃ n, budget = n + 2 := ⟨budget - 2, by omega⟩
    obtain ⟨valuesLeft, valuesRight⟩ := List.forall_mem_append.mp values
    have left := ihl valuesLeft (by omega : l.toJson.height ≤ inside)
    have right := ihr valuesRight (by omega : r.toJson.height ≤ inside)
    exact Expr.read_or l.opens r.opens left right
  | not u ih =>
    rw [toJson, height_tagged] at fits
    obtain ⟨inside, rfl, room⟩ := exists_inside fits
    exact Expr.read_not fun k => ih values room k

end RawExpr

end HqlWhere

import FastProto.Lib.Fallible

/-! # Cursors over a token buffer

A cursor is a buffer with a read position. A reading step takes a cursor and either fails or
returns a value with the cursor moved on. Three notions carry every fact proved about such
readers:

* **`Reads f chunk a`** — wherever `chunk` stands right after the cursor, `f` returns `a` and
  stops right after it, whatever comes before and whatever follows;
* **`Framed f`** — every success of `f` is of that kind: it is decided by the chunk it consumes;
* **`Split item xs as`** — `xs` is cut into consecutive nonempty chunks that `item` reads as `as`.

`drainAll` is the loop `while !at_end { body }`. `drainAll_split` and `split_of_drainAll` turn it
into a fold over the items its buffer splits into. -/

namespace Lib

universe u

variable {β ε ε' α γ σ : Type u}

/-! ## Cursors -/

/-- A read position in a token buffer. -/
structure Cursor (β : Type u) where
  /-- The whole buffer. -/
  buf : List β
  /-- The offset of the next token to read. -/
  pos : Nat
  deriving DecidableEq, Repr

namespace Cursor

/-- Whether the whole buffer has been consumed. -/
def atEnd (c : Cursor β) : Bool := decide (c.buf.length ≤ c.pos)

/-- The tokens not read yet. -/
def rest (c : Cursor β) : List β := c.buf.drop c.pos

/-- The tokens consumed since the offset `start`. -/
def since (c : Cursor β) (start : Nat) : List β := (c.buf.take c.pos).drop start

/-- The cursor that stands between `pre`, already consumed, and `post`, still unread. -/
def between (pre post : List β) : Cursor β := ⟨pre ++ post, pre.length⟩

@[simp] theorem between_buf (pre post : List β) : (between pre post).buf = pre ++ post := rfl

@[simp] theorem between_pos (pre post : List β) : (between pre post).pos = pre.length := rfl

@[simp] theorem rest_between (pre post : List β) : (between pre post).rest = post := by
  simp [rest]

/-- A cursor stands at the end iff nothing is left to read. -/
@[simp] theorem atEnd_between (pre post : List β) :
    (between pre post).atEnd = decide (post = []) := by
  rw [atEnd, between_buf, between_pos, List.length_append]
  cases post with
  | nil => simp
  | cons b post => simp

/-- A cursor at the start of a buffer. -/
theorem mk_zero (s : List β) : (⟨s, 0⟩ : Cursor β) = between [] s := rfl

/-- Any cursor inside its buffer stands between the part it consumed and the rest. -/
theorem eq_between {c : Cursor β} (h : c.pos ≤ c.buf.length) :
    c = between (c.buf.take c.pos) c.rest := by
  obtain ⟨buf, pos⟩ := c
  simp only [between, rest, List.take_append_drop, List.length_take, mk.injEq, true_and]
  exact (Nat.min_eq_left h).symm

/-- The tokens consumed since the start of a chunk are the chunk. -/
@[simp] theorem since_between_append (pre chunk post : List β) :
    (between (pre ++ chunk) post).since pre.length = chunk := by
  rw [since, between_buf, between_pos, List.take_left, List.drop_left]

/-- Regrouping what stands after the cursor. -/
theorem between_append_left (pre chunk post : List β) :
    (between (pre ++ chunk) post).buf = pre ++ (chunk ++ post) := by
  rw [between_buf, List.append_assoc]

/-! ## Scanners and the chunks they read -/

/-- A reading step: it fails, or returns a value and moves the cursor. -/
abbrev Scan (β ε α : Type u) := StateT (Cursor β) (Except ε) α

/-- **`f` reads exactly `chunk`**: wherever it stands right after the cursor, `f` returns `a` and
stops right after it. -/
def Reads (f : Scan β ε α) (chunk : List β) (a : α) : Prop :=
  ∀ pre post, f (between pre (chunk ++ post)) = .ok (a, between (pre ++ chunk) post)

/-- **Every success is decided by the chunk it consumes.** -/
def Framed (f : Scan β ε α) : Prop :=
  ∀ pre s a c', f (between pre s) = .ok (a, c') →
    ∃ chunk post, s = chunk ++ post ∧ c' = between (pre ++ chunk) post ∧ Reads f chunk a

/-- No success without consuming a token. -/
def Advances (f : Scan β ε α) : Prop :=
  ∀ a, ¬ Reads f [] a

/-- A chunk determines the value read from it. -/
theorem Reads.unique {f : Scan β ε α} {chunk : List β} {a b : α}
    (ha : Reads f chunk a) (hb : Reads f chunk b) : a = b := by
  have h := (ha [] []).symm.trans (hb [] [])
  injection h with h
  exact (Prod.mk.inj h).1

/-- An advancing reader consumes a nonempty chunk. -/
theorem Advances.ne_nil {f : Scan β ε α} (hf : Advances f)
    {chunk : List β} {a : α} (h : Reads f chunk a) : chunk ≠ [] := by
  rintro rfl
  exact hf a h

/-- Sequencing two readers, on a cursor. -/
theorem bind_apply (f : Scan β ε α) (g : α → Scan β ε γ) (c : Cursor β) :
    (f >>= g) c = f c >>= fun r => g r.1 r.2 := rfl

/-- Returning a value, on a cursor. -/
@[simp] theorem pure_apply (a : α) (c : Cursor β) :
    (pure a : Scan β ε α) c = .ok (a, c) := rfl

/-- Failing, on a cursor. -/
@[simp] theorem throw_apply (e : ε) (c : Cursor β) :
    (throw e : Scan β ε α) c = .error e := rfl

/-- Running a computation that does not touch the cursor. -/
@[simp] theorem lift_apply (x : Except ε α) (c : Cursor β) :
    (StateT.lift x : Scan β ε α) c = x >>= fun a => .ok (a, c) := rfl

/-- A reader whose errors are converted by `g`. -/
def mapErr (g : ε → ε') (f : Scan β ε α) : Scan β ε' α :=
  fun c => (f c).mapError g

/-- Converting the errors, on a cursor. -/
theorem mapErr_apply (g : ε → ε') (f : Scan β ε α) (c : Cursor β) :
    mapErr g f c = (f c).mapError g := rfl

/-- Converting errors by the identity changes nothing. -/
@[simp] theorem mapErr_id (f : Scan β ε α) : mapErr id f = f := by
  funext c
  rw [mapErr_apply]
  cases f c <;> rfl

/-- Converting errors distributes over sequencing. -/
theorem mapErr_bind (g : ε → ε') (f : Scan β ε α) (k : α → Scan β ε γ) :
    mapErr g (f >>= k) = mapErr g f >>= fun a => mapErr g (k a) := by
  funext c
  exact mapError_bind g (f c) fun r => k r.1 r.2

/-- Converting errors leaves a returned value alone. -/
@[simp] theorem mapErr_pure (g : ε → ε') (a : α) :
    mapErr g (pure a : Scan β ε α) = pure a := rfl

/-- Converting errors leaves a function applied to the value alone. -/
@[simp] theorem mapErr_map (g : ε → ε') (k : α → γ) (f : Scan β ε α) :
    mapErr g (k <$> f) = k <$> mapErr g f := by
  rw [map_eq_pure_bind, map_eq_pure_bind, mapErr_bind]
  rfl

/-- A computation that succeeds without touching the cursor. -/
@[simp] theorem lift_ok (a : α) : (StateT.lift (.ok a : Except ε α) : Scan β ε α) = pure a := rfl

/-- Running a sequence that does not touch the cursor. -/
@[simp] theorem lift_bind (x : Except ε α) (k : α → Except ε γ) :
    (StateT.lift (x >>= k) : Scan β ε γ) = StateT.lift x >>= fun a => StateT.lift (k a) := by
  funext c
  cases x with
  | error e => rfl
  | ok a => rfl

/-- Reading two chunks one after the other. -/
theorem Reads.bind {f : Scan β ε α} {g : α → Scan β ε γ} {c₁ c₂ : List β} {a : α} {b : γ}
    (hf : Reads f c₁ a) (hg : Reads (g a) c₂ b) : Reads (f >>= g) (c₁ ++ c₂) b := by
  intro pre post
  have h₁ := hf pre (c₂ ++ post)
  have h₂ := hg (pre ++ c₁) post
  simp only [List.append_assoc] at h₁ h₂ ⊢
  rw [bind_apply, h₁, ok_bind]
  exact h₂

/-- Returning a value reads the empty chunk. -/
theorem Reads.pure (a : α) : Reads (pure a : Scan β ε α) [] a := by
  intro pre post
  rw [List.nil_append, List.append_nil, pure_apply]

/-- Reading a chunk, then continuing without reading. -/
theorem Reads.bind_nil {f : Scan β ε α} {g : α → Scan β ε γ} {chunk : List β} {a : α} {b : γ}
    (hf : Reads f chunk a) (hg : Reads (g a) [] b) : Reads (f >>= g) chunk b := by
  have h := hf.bind hg
  rwa [List.append_nil] at h

/-- A chunk read and then mapped was read. -/
theorem Reads.of_bind_pure {f : Scan β ε α} {k : α → γ} {chunk : List β} {b : γ}
    (hf : Framed f) (h : Reads (f >>= fun a => Pure.pure (k a)) chunk b) :
    ∃ a, Reads f chunk a ∧ k a = b := by
  obtain ⟨⟨a, c₁⟩, h₁, h₂⟩ := bind_eq_ok.mp (h [] [])
  obtain ⟨chunk', post, hs, rfl, r⟩ := hf [] (chunk ++ []) a c₁ h₁
  injection h₂ with h₂
  obtain ⟨hb, hc⟩ := Prod.mk.inj h₂
  have hpost : post = [] := by
    simpa only [rest_between] using congrArg Cursor.rest hc
  subst hpost
  rw [List.append_nil, List.append_nil] at hs
  subst hs
  exact ⟨a, r, hb⟩

/-- Converting the errors does not change what is read. -/
theorem Reads.mapErr {f : Scan β ε α} {chunk : List β} {a : α} (hf : Reads f chunk a)
    (g : ε → ε') : Reads (mapErr g f) chunk a := by
  intro pre post
  rw [mapErr_apply, hf pre post, mapError_ok]

/-- Returning a value is framed: it consumes nothing. -/
theorem Framed.pure (a : α) : Framed (pure a : Scan β ε α) := by
  intro pre s b c' h
  rw [pure_apply] at h
  injection h with h
  obtain ⟨rfl, rfl⟩ := Prod.mk.inj h
  exact ⟨[], s, rfl, by rw [List.append_nil], Reads.pure a⟩

/-- A reader that always fails is framed. -/
theorem Framed.throw (e : ε) : Framed (throw e : Scan β ε α) := by
  intro pre s a c' h
  cases h

/-- **Framed readers compose.** -/
theorem Framed.bind {f : Scan β ε α} {g : α → Scan β ε γ} (hf : Framed f)
    (hg : ∀ a, Framed (g a)) : Framed (f >>= g) := by
  intro pre s b c' h
  obtain ⟨⟨a, c₁⟩, h₁, h₂⟩ := bind_eq_ok.mp h
  obtain ⟨chunk₁, post₁, rfl, rfl, r₁⟩ := hf pre s a c₁ h₁
  obtain ⟨chunk₂, post₂, rfl, rfl, r₂⟩ := hg a _ _ _ _ h₂
  refine ⟨chunk₁ ++ chunk₂, post₂, ?_, ?_, r₁.bind r₂⟩
  · rw [List.append_assoc]
  · rw [List.append_assoc]

/-- A chunk read by two scanners in a row is a chunk of the first and then one of the second. -/
theorem Reads.of_bind {f : Scan β ε α} {g : α → Scan β ε γ} {chunk : List β} {b : γ}
    (hf : Framed f) (hg : ∀ a, Framed (g a)) (h : Reads (f >>= g) chunk b) :
    ∃ front back a, chunk = front ++ back ∧ Reads f front a ∧ Reads (g a) back b := by
  obtain ⟨⟨a, c⟩, hfirst, hsecond⟩ := bind_eq_ok.mp (h [] [])
  obtain ⟨front, post, hchunk, rfl, hfront⟩ := hf _ _ a c hfirst
  obtain ⟨back, rest, rfl, hend, hback⟩ := hg a _ _ b _ hsecond
  have hrest : rest = [] := by
    simpa only [rest_between] using (congrArg Cursor.rest hend).symm
  subst hrest
  exact ⟨front, back, a, by simpa using hchunk, hfront, hback⟩

/-- A composite advances when its first part does. -/
theorem Advances.bind {f : Scan β ε α} {g : α → Scan β ε γ} (hf : Framed f)
    (ha : Advances f) : Advances (f >>= g) := by
  intro b h
  obtain ⟨⟨a, c₁⟩, h₁, -⟩ := bind_eq_ok.mp (h [] [])
  obtain ⟨chunk, post, hs, -, r⟩ := hf [] ([] ++ []) a c₁ h₁
  have hnil : chunk = [] := (List.append_eq_nil_iff.mp hs.symm).1
  exact ha a (hnil ▸ r)

/-- A choice that does not look at the buffer is framed when both branches are. -/
theorem Framed.ite {p : Prop} [Decidable p] {f g : Scan β ε α} (hf : Framed f)
    (hg : Framed g) : Framed (if p then f else g) := by
  by_cases h : p
  · simpa only [if_pos h] using hf
  · simpa only [if_neg h] using hg

/-! ## Primitive readers -/

/-- Read the next token. -/
def next (eof : ε) : Scan β ε β := fun c =>
  match c.buf[c.pos]? with
  | none => .error eof
  | some b => .ok (b, { c with pos := c.pos + 1 })

/-- Standing before a token, `next` returns it. -/
theorem reads_next (eof : ε) (b : β) : Reads (next eof) [b] b := by
  intro pre post
  rw [next, between_buf, between_pos, List.getElem?_append_right (Nat.le_refl _), Nat.sub_self]
  simp [between]

/-- At the end of the buffer, `next` fails. -/
theorem next_nil (eof : ε) (pre : List β) : next eof (between pre []) = .error eof := by
  simp [next]

/-- `next` is framed. -/
theorem framed_next (eof : ε) : Framed (next eof : Scan β ε β) := by
  intro pre s a c' h
  cases s with
  | nil => rw [next_nil] at h; cases h
  | cons b post =>
      have hr := reads_next eof b pre post
      rw [List.singleton_append, h] at hr
      injection hr with hr
      obtain ⟨rfl, rfl⟩ := Prod.mk.inj hr
      exact ⟨[a], post, rfl, rfl, reads_next eof a⟩

/-- `next` consumes a token. -/
theorem advances_next (eof : ε) : Advances (next eof : Scan β ε β) := by
  intro a h
  have := h [] []
  rw [List.nil_append, next_nil] at this
  cases this

/-- Read the next `n` tokens as one slice. -/
def takeSlice (eof : ε) (n : Nat) : Scan β ε (List β) := fun c =>
  if c.pos + n ≤ c.buf.length then
    .ok ((c.buf.drop c.pos).take n, { c with pos := c.pos + n })
  else .error eof

/-- Standing before `n` tokens, `takeSlice` returns them. -/
theorem reads_takeSlice (eof : ε) (chunk : List β) :
    Reads (takeSlice eof chunk.length) chunk chunk := by
  intro pre post
  rw [takeSlice, between_buf, between_pos, if_pos (by simp)]
  simp [between]

/-- `takeSlice` is framed. -/
theorem framed_takeSlice (eof : ε) (n : Nat) :
    Framed (takeSlice eof n : Scan β ε (List β)) := by
  intro pre s a c' h
  by_cases hn : n ≤ s.length
  · have hlen : (s.take n).length = n := by simp [hn]
    have hr := reads_takeSlice eof (s.take n) pre (s.drop n)
    rw [hlen, List.take_append_drop, h] at hr
    injection hr with hr
    obtain ⟨rfl, rfl⟩ := Prod.mk.inj hr
    refine ⟨s.take n, s.drop n, (List.take_append_drop n s).symm, rfl, ?_⟩
    have := reads_takeSlice eof (s.take n)
    rwa [hlen] at this
  · rw [takeSlice, between_buf, between_pos, if_neg (by simp; omega)] at h
    cases h

/-- A slice that is not empty takes tokens. -/
theorem advances_takeSlice (eof : ε) {n : Nat} (hn : 0 < n) :
    Advances (takeSlice eof n : Scan β ε (List β)) := by
  intro a h
  have hread := h [] []
  rw [List.nil_append, takeSlice, between_buf, between_pos, if_neg (by simp; omega)] at hread
  cases hread

/-- The tokens consumed since the offset `start`, as a reading step. -/
def rawSince (start : Nat) : Scan β ε (List β) := fun c => .ok (c.since start, c)

/-- Run `f` and also return the tokens it consumed. -/
def capture (f : Scan β ε α) : Scan β ε (α × List β) := fun c =>
  f c >>= fun r => .ok ((r.1, r.2.since c.pos), r.2)

/-- What a capture reads is what it returns as its second part. -/
theorem Reads.capture {f : Scan β ε α} {chunk : List β} {a : α} (hf : Reads f chunk a) :
    Reads (capture f) chunk (a, chunk) := by
  intro pre post
  rw [Cursor.capture, hf pre post, ok_bind, between_pos, since_between_append]

/-- A capture of a framed reader is framed. -/
theorem Framed.capture {f : Scan β ε α} (hf : Framed f) : Framed (capture f) := by
  intro pre s a c' h
  obtain ⟨⟨x, c₁⟩, h₁, h₂⟩ := bind_eq_ok.mp h
  obtain ⟨chunk, post, rfl, rfl, r⟩ := hf pre s x c₁ h₁
  rw [between_pos, since_between_append] at h₂
  injection h₂ with h₂
  obtain ⟨rfl, rfl⟩ := Prod.mk.inj h₂
  exact ⟨chunk, post, rfl, rfl, r.capture⟩

/-- A capture advances when the captured reader does. -/
theorem Advances.capture {f : Scan β ε α} (hf : Framed f) (ha : Advances f) :
    Advances (capture f) := by
  intro b h
  obtain ⟨⟨a, c₁⟩, h₁, -⟩ := bind_eq_ok.mp (h [] [])
  obtain ⟨chunk, post, hs, -, r⟩ := hf [] ([] ++ []) a c₁ h₁
  have hnil : chunk = [] := (List.append_eq_nil_iff.mp hs.symm).1
  exact ha a (hnil ▸ r)

/-- The second part of a capture's value is the chunk it reads. -/
theorem Reads.capture_snd {f : Scan β ε α} (hf : Framed f) {chunk : List β}
    {b : α × List β} (h : Reads (Cursor.capture f) chunk b) :
    b.2 = chunk ∧ Reads f chunk b.1 := by
  obtain ⟨⟨a, c₁⟩, h₁, h₂⟩ := bind_eq_ok.mp (h [] [])
  obtain ⟨chunk', post, hs, rfl, r⟩ := hf [] (chunk ++ []) a c₁ h₁
  rw [between_pos, since_between_append] at h₂
  injection h₂ with h₂
  obtain ⟨rfl, hc⟩ := Prod.mk.inj h₂
  have hpost : post = [] := by
    simpa only [rest_between] using congrArg Cursor.rest hc
  subst hpost
  rw [List.append_nil, List.append_nil] at hs
  subst hs
  exact ⟨rfl, r⟩

/-! ## Draining a buffer -/

/-- `while !at_end { body }`, for at most the given number of rounds. -/
def drain (body : σ → Scan β ε σ) :
    Nat → σ → Cursor β → Except ε σ
  | 0, s, _ => .ok s
  | fuel + 1, s, c =>
      if c.atEnd then .ok s
      else body s c >>= fun r => drain body fuel r.1 r.2

/-- The loop `while !at_end { body }`: a body that consumes a token each round ends within as many
rounds as there are unread tokens. -/
def drainAll (body : σ → Scan β ε σ) (s : σ) (c : Cursor β) :
    Except ε σ :=
  drain body (c.buf.length - c.pos) s c

/-- **`xs` is cut into consecutive nonempty chunks that `item` reads as `as`.** -/
inductive Split (item : Scan β ε α) : List β → List α → Prop
  /-- Nothing splits into nothing. -/
  | nil : Split item [] []
  /-- A chunk read as `a`, then the split of what follows it. -/
  | cons {chunk xs : List β} {a : α} {as : List α} (hne : chunk ≠ [])
      (hread : Reads item chunk a) (htail : Split item xs as) :
      Split item (chunk ++ xs) (a :: as)

/-- One item. -/
theorem Split.single {item : Scan β ε α} {chunk : List β} {a : α}
    (hne : chunk ≠ []) (hread : Reads item chunk a) : Split item chunk [a] := by
  have h := Split.cons hne hread Split.nil
  rwa [List.append_nil] at h

/-- Splits concatenate. -/
theorem Split.append {item : Scan β ε α} {xs ys : List β}
    {as bs : List α} (hx : Split item xs as) (hy : Split item ys bs) :
    Split item (xs ++ ys) (as ++ bs) := by
  induction hx with
  | nil => exact hy
  | cons hne hread _ ih =>
      rw [List.append_assoc, List.cons_append]
      exact .cons hne hread ih

/-- Splits of a family of buffers concatenate. -/
theorem Split.flatMap {ι : Type u} {item : Scan β ε α} {f : ι → List β}
    {g : ι → List α} (l : List ι) (h : ∀ i ∈ l, Split item (f i) (g i)) :
    Split item (l.flatMap f) (l.flatMap g) := by
  induction l with
  | nil => exact .nil
  | cons i l ih =>
      rw [List.flatMap_cons, List.flatMap_cons]
      exact (h i (by simp)).append (ih fun j hj => h j (by simp [hj]))

/-- A buffer splits in at most one way. -/
theorem Split.unique {item : Scan β ε α} {xs : List β} {as bs : List α}
    (ha : Split item xs as) (hb : Split item xs bs) : as = bs := by
  induction ha generalizing bs with
  | nil =>
      generalize hx : ([] : List β) = xs at hb
      cases hb with
      | nil => rfl
      | cons hne hread htail => exact absurd (List.append_eq_nil_iff.mp hx.symm).1 hne
  | @cons chunk xs a as hne hread htail ih =>
      generalize hx : chunk ++ xs = ys at hb
      cases hb with
      | nil => exact absurd (List.append_eq_nil_iff.mp hx).1 hne
      | @cons chunk' xs' a' as' hne' hread' htail' =>
          have h := hread [] xs
          rw [hx, hread' [] xs'] at h
          injection h with h
          obtain ⟨rfl, hc⟩ := Prod.mk.inj h
          have hrest : xs' = xs := by
            simpa only [rest_between] using congrArg Cursor.rest hc
          subst hrest
          rw [ih htail']

variable {item : Scan β ε' α} {step : σ → α → Except ε σ}
  {body : σ → Scan β ε σ} {conv : ε' → ε} {P : σ → Prop}

/-- **A body that reads an item and then updates the state**, on the states of an invariant `P`:
the item is read before the state is touched, and errors of the reader are converted. -/
def BodyOn (P : σ → Prop) (item : Scan β ε' α) (conv : ε' → ε)
    (step : σ → α → Except ε σ) (body : σ → Scan β ε σ) : Prop :=
  ∀ s, P s → body s = mapErr conv item >>= fun a => StateT.lift (step s a)

/-- A body that reads an item and then updates the state, in every state. -/
def Body (item : Scan β ε' α) (conv : ε' → ε)
    (step : σ → α → Except ε σ) (body : σ → Scan β ε σ) : Prop :=
  ∀ s, body s = mapErr conv item >>= fun a => StateT.lift (step s a)

/-- A step keeps the invariant `P`. -/
def Keeps (P : σ → Prop) (step : σ → α → Except ε σ) : Prop :=
  ∀ s a s', P s → step s a = .ok s' → P s'

/-- A body in every state is one on any invariant. -/
theorem Body.on (hbody : Body item conv step body) (P : σ → Prop) :
    BodyOn P item conv step body := fun s _ => hbody s

/-- The trivial invariant is kept. -/
theorem keeps_true (step : σ → α → Except ε σ) : Keeps (fun _ => True) step :=
  fun _ _ _ _ _ => trivial

/-- Draining a buffer that splits folds the step over the items, errors included. -/
theorem drain_split (hbody : BodyOn P item conv step body) (hkeeps : Keeps P step)
    {xs : List β} {as : List α} (hsplit : Split item xs as) :
    ∀ (fuel : Nat) (pre : List β) (s : σ), P s → xs.length ≤ fuel →
      drain body fuel s (between pre xs) = as.foldlM step s := by
  induction hsplit with
  | nil =>
      intro fuel pre s _ _
      cases fuel with
      | zero => rfl
      | succ fuel => rw [drain, atEnd_between, if_pos (by simp)]; rfl
  | @cons chunk xs a as hne hread _ ih =>
      intro fuel pre s hs hfuel
      have hpos : 0 < chunk.length := List.length_pos_iff.mpr hne
      rw [List.length_append] at hfuel
      obtain ⟨fuel, rfl⟩ : ∃ n, fuel = n + 1 := ⟨fuel - 1, by omega⟩
      rw [drain, atEnd_between, if_neg (by simp [hne]), hbody s hs, bind_apply,
        hread.mapErr conv pre xs, ok_bind, lift_apply, List.foldlM_cons]
      cases hstep : step s a with
      | error e => rfl
      | ok s' =>
          simp only [ok_bind]
          exact ih fuel (pre ++ chunk) s' (hkeeps s a s' hs hstep) (by omega)

/-- The loop is a fold over the items, errors included, from a state of the invariant. -/
theorem drainAll_split_on (hbody : BodyOn P item conv step body) (hkeeps : Keeps P step)
    {xs : List β} {as : List α} (hsplit : Split item xs as) {s : σ} (hs : P s) :
    drainAll body s ⟨xs, 0⟩ = as.foldlM step s := by
  rw [drainAll, mk_zero]
  exact drain_split hbody hkeeps hsplit _ [] s hs (by simp)

/-- **The loop is a fold over the items**, errors included. -/
theorem drainAll_split (hbody : Body item conv step body) {xs : List β} {as : List α}
    (hsplit : Split item xs as) (s : σ) :
    drainAll body s ⟨xs, 0⟩ = as.foldlM step s :=
  drainAll_split_on (hbody.on fun _ => True) (keeps_true step) hsplit trivial

/-- A loop whose body commutes with a function on states commutes with it. -/
theorem drain_map {body : σ → Scan β ε σ} (g : σ → σ)
    (h : ∀ s, body (g s) = body s >>= fun s' => pure (g s')) :
    ∀ (fuel : Nat) (s : σ) (c : Cursor β),
      drain body fuel (g s) c = drain body fuel s c >>= fun s' => .ok (g s') := by
  intro fuel
  induction fuel with
  | zero => exact fun s c => rfl
  | succ fuel ih =>
      intro s c
      rw [drain, drain]
      split
      · rfl
      · rw [h s, bind_apply]
        simp only [bind_assoc, pure_apply, ok_bind]
        exact congrArg _ (funext fun r => ih r.1 r.2)

/-- A drain that succeeds has split its buffer. -/
theorem split_of_drain (hitem : Framed item) (hadv : Advances item)
    (hbody : BodyOn P item conv step body) (hkeeps : Keeps P step) :
    ∀ (fuel : Nat) (pre xs : List β) (s t : σ), P s → xs.length ≤ fuel →
      drain body fuel s (between pre xs) = .ok t → ∃ as, Split item xs as := by
  intro fuel
  induction fuel with
  | zero =>
      intro pre xs s t _ hlen _
      rw [List.length_eq_zero_iff.mp (Nat.le_zero.mp hlen)]
      exact ⟨[], .nil⟩
  | succ fuel ih =>
      intro pre xs s t hP hlen h
      rw [drain, atEnd_between] at h
      by_cases hx : xs = []
      · subst hx
        exact ⟨[], .nil⟩
      · rw [if_neg (by simp [hx]), hbody s hP] at h
        obtain ⟨⟨s', c'⟩, hstep, hrest⟩ := bind_eq_ok.mp h
        obtain ⟨⟨a, c₁⟩, hread, hs⟩ := bind_eq_ok.mp hstep
        rw [mapErr_apply, mapError_eq_ok] at hread
        obtain ⟨s₁, hs₁, hs⟩ := bind_eq_ok.mp hs
        injection hs with hs
        obtain ⟨rfl, rfl⟩ := Prod.mk.inj hs
        obtain ⟨chunk, post, rfl, rfl, hreads⟩ := hitem pre xs a c₁ hread
        have hne := hadv.ne_nil hreads
        have hpos : 0 < chunk.length := List.length_pos_iff.mpr hne
        rw [List.length_append] at hlen
        obtain ⟨as, has⟩ := ih (pre ++ chunk) post s₁ t (hkeeps s a s₁ hP hs₁) (by omega) hrest
        exact ⟨a :: as, .cons hne hreads has⟩

/-- A loop that succeeds from a state of the invariant is a fold over the items its buffer splits
into. -/
theorem drainAll_eq_ok_on (hitem : Framed item) (hadv : Advances item)
    (hbody : BodyOn P item conv step body) (hkeeps : Keeps P step) {xs : List β} {s t : σ}
    (hs : P s) :
    drainAll body s ⟨xs, 0⟩ = .ok t ↔ ∃ as, Split item xs as ∧ as.foldlM step s = .ok t := by
  constructor
  · intro h
    obtain ⟨as, has⟩ := split_of_drain hitem hadv hbody hkeeps _ [] xs s t hs (by simp) h
    exact ⟨as, has, by rw [← drainAll_split_on hbody hkeeps has hs, h]⟩
  · rintro ⟨as, has, h⟩
    rw [drainAll_split_on hbody hkeeps has hs, h]

/-- **A loop that succeeds is a fold** over the items its buffer splits into. -/
theorem drainAll_eq_ok (hitem : Framed item) (hadv : Advances item)
    (hbody : Body item conv step body) {xs : List β} {s t : σ} :
    drainAll body s ⟨xs, 0⟩ = .ok t ↔ ∃ as, Split item xs as ∧ as.foldlM step s = .ok t :=
  drainAll_eq_ok_on hitem hadv (hbody.on fun _ => True) (keeps_true step) trivial

/-- **A row of items moves a measure by at most its length**, when each item moves it by at most the
length of the chunk it is read from. -/
theorem Split.foldlM_le {step : σ → α → Except ε σ} {m : σ → Nat} {xs : List β} {as : List α}
    (hsplit : Split item xs as) (cost : Nat)
    (hstep : ∀ s a s' chunk, P s → Reads item chunk a → step s a = .ok s' →
      P s' ∧ m s' ≤ m s + cost * chunk.length) :
    ∀ s t, P s → as.foldlM step s = .ok t → m t ≤ m s + cost * xs.length := by
  induction hsplit with
  | nil =>
      intro s t _ h
      cases h
      exact Nat.le_add_right _ _
  | @cons chunk xs a as _ hread _ ih =>
      intro s t hs h
      rw [List.foldlM_cons] at h
      obtain ⟨s', hs', h⟩ := bind_eq_ok.mp h
      obtain ⟨hP, hle⟩ := hstep s a s' chunk hs hread hs'
      have hrest := ih s' t hP h
      rw [List.length_append, Nat.mul_add]
      omega

end Cursor

end Lib

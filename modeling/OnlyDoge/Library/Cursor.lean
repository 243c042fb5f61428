import Mathlib.Logic.Basic
import Mathlib.Data.List.Basic
import Mathlib.Algebra.Ring.Int.Defs
import Mathlib.Algebra.Ring.Nat
set_option autoImplicit false

/-!
Readers of a list from a cursor. Beside its position the cursor keeps what no reader looks at:
the ranges read, the loop iterations made, and the spans marked as belonging together.
-/

structure Cursor (ι : Type) where
  items : List ι
  offset : Nat
  reads : List (Nat × Nat)
  iterations : Nat
  spans : List (Nat × Nat)
  deriving DecidableEq

def Reader (ι ε α : Type) : Type := Cursor ι → Except ε α × Cursor ι

namespace Reader
variable {ι ε ε' α β τ : Type}

def pure (a : α) : Reader ι ε α := fun c => (.ok a,c)

def bind (m : Reader ι ε α) (f : α → Reader ι ε β) : Reader ι ε β := fun c =>
  match m c with
  | (.ok a,d) => f a d
  | (.error e,d) => (.error e,d)

instance : Monad (Reader ι ε) where
  pure := Reader.pure
  bind := Reader.bind

def start (items : List ι) : Cursor ι := ⟨items,0,[],0,[]⟩

def throw (e : ε) : Reader ι ε α := fun c => (.error e,c)

def mapError (f : ε → ε') (m : Reader ι ε α) : Reader ι ε' α := fun c =>
  match m c with
  | (.ok a,d) => (.ok a,d)
  | (.error e,d) => (.error (f e),d)

def offset : Reader ι ε Nat := fun c => (.ok c.offset,c)

def length : Reader ι ε Nat := fun c => (.ok c.items.length,c)

def iterate (n : Nat) : Reader ι ε Unit := fun c =>
  (.ok (),{c with iterations := c.iterations + n})

/-- The items between two positions, each cut off at the end of the list. -/
def slice (start stop : Nat) : Reader ι ε (List ι) := fun c =>
  let first := min start c.items.length
  let last := min stop c.items.length
  (.ok ((c.items.drop first).take (last - first)),
    {c with reads := c.reads ++ [(first,last - first)]})

/-- The next `n` items, which stay unread; the error is made from the position. -/
def peek (past : Nat → ε) (n : Nat) : Reader ι ε (List ι) := fun c =>
  if c.offset + n > c.items.length then (.error (past c.offset),c)
  else (.ok ((c.items.drop c.offset).take n),{c with reads := c.reads ++ [(c.offset,n)]})

def skip (past : Nat → ε) (n : Nat) : Reader ι ε Unit := fun c =>
  if c.offset + n > c.items.length then (.error (past c.offset),c)
  else (.ok (),{c with offset := c.offset + n})

def when (condition : Bool) (m : Reader ι ε Unit) : Reader ι ε Unit :=
  if condition then m else Reader.pure ()

def repeatFrom (body : Nat → Reader ι ε α) : Nat → Nat → Reader ι ε (List α)
  | _,0 => Pure.pure []
  | index,count + 1 => do
    iterate 1
    let a ← body index
    let rest ← repeatFrom body (index + 1) count
    return a::rest

/-- `for index = 0 .. count - 1`, collecting what the body returns. -/
def times (count : Nat) (body : Nat → Reader ι ε α) : Reader ι ε (List α) :=
  repeatFrom body 0 count

/-- Marks what `m` consumed as one span. -/
def spanned (m : Reader ι ε α) : Reader ι ε α := fun c =>
  match m c with
  | (.ok a,d) => (.ok a,{d with spans := d.spans ++ [(c.offset,d.offset)]})
  | (.error e,d) => (.error e,d)

/-- The cursor stands between `before` and `after`. -/
structure At (c : Cursor ι) (before after : List ι) : Prop where
  items : c.items = before ++ after
  offset : c.offset = before.length

/-- From one position `m` returns `a` and ends at another. -/
def Reads (m : Reader ι ε α) (before after : List ι) (a : α) (before' after' : List ι) : Prop :=
  ∀ c, At c before after → ∃ d, m c = (.ok a,d) ∧ At d before' after'

/-- Wherever `m` meets the items `xs` it consumes them and returns `a`. -/
def Decodes (m : Reader ι ε α) (xs : List ι) (a : α) : Prop :=
  ∀ before after, Reads m before (xs ++ after) a (before ++ xs) after

section Reads
variable {m : Reader ι ε α} {f : α → Reader ι ε β} {a : α} {b : β} {xs ys : List ι}
  {before after before' after' before'' after'' : List ι} {past : Nat → ε}

theorem reads_pure : Reads (Pure.pure a : Reader ι ε α) before after a before after :=
  fun c hc => ⟨c,rfl,hc⟩

theorem reads_bind (hm : Reads m before after a before' after')
    (hf : Reads (f a) before' after' b before'' after'') :
    Reads (m >>= f) before after b before'' after'' := by
  intro c hc
  obtain ⟨d,hd,hat⟩ := hm c hc
  obtain ⟨e,he,hat'⟩ := hf d hat
  refine ⟨e,?_,hat'⟩
  show Reader.bind m f c = _
  simp only [Reader.bind,hd]
  exact he

theorem reads_offset : Reads (offset : Reader ι ε Nat) before after before.length before after :=
  fun c hc => ⟨c,by simp only [offset,hc.offset],hc⟩

theorem reads_slice (h : before = xs ++ ys) :
    Reads (slice xs.length before.length : Reader ι ε _) before after ys before after := by
  intro c hc
  refine ⟨(slice xs.length before.length c : Except ε _ × _).2,?_,hc.items,hc.offset⟩
  have hlen : c.items.length = before.length + after.length := by rw [hc.items,List.length_append]
  have hbefore : before.length = xs.length + ys.length := by rw [h,List.length_append]
  have hxs : min xs.length c.items.length = xs.length := by omega
  have hys : min before.length c.items.length = before.length := by omega
  have hspan : before.length - xs.length = ys.length := by omega
  simp only [slice,hxs,hys,hspan]
  rw [hc.items,h,List.append_assoc,List.drop_left,List.take_left]

theorem reads_peek {n : Nat} (h : xs.length = n) :
    Reads (peek past n) before (xs ++ after) xs before (xs ++ after) := by
  intro c hc
  have hlen : ¬c.offset + n > c.items.length := by
    rw [hc.items,hc.offset,List.length_append,List.length_append]
    omega
  refine ⟨{c with reads := c.reads ++ [(c.offset,n)]},?_,hc.items,hc.offset⟩
  unfold peek
  rw [if_neg hlen,hc.items,hc.offset,List.drop_left,← h,List.take_left]

theorem reads_iterate {n : Nat} :
    Reads (iterate n : Reader ι ε Unit) before after () before after :=
  fun _ hc => ⟨_,rfl,hc.items,hc.offset⟩

theorem reads_mapError {h : ε → ε'} (hm : Reads m before after a before' after') :
    Reads (mapError h m) before after a before' after' := by
  intro c hc
  obtain ⟨d,hd,hat⟩ := hm c hc
  exact ⟨d,by simp only [mapError,hd],hat⟩

theorem reads_spanned (hm : Reads m before after a before' after') :
    Reads (spanned m) before after a before' after' := by
  intro c hc
  obtain ⟨d,hd,hat⟩ := hm c hc
  exact ⟨{d with spans := d.spans ++ [(c.offset,d.offset)]},by simp only [spanned,hd],
    hat.items,hat.offset⟩

theorem decodes_pure : Decodes (Pure.pure a : Reader ι ε α) [] a := by
  intro before after
  rw [List.append_nil]
  exact reads_pure

theorem decodes_bind (hm : Decodes m xs a) (hf : Decodes (f a) ys b) :
    Decodes (m >>= f) (xs ++ ys) b := by
  intro before after
  rw [List.append_assoc,← List.append_assoc before]
  exact reads_bind (hm before (ys ++ after)) (hf (before ++ xs) after)

theorem decodes_map (hm : Decodes m xs a) (hf : Decodes (f a) [] b) :
    Decodes (m >>= f) xs b := by
  have h := decodes_bind hm hf
  rwa [List.append_nil] at h

theorem decodes_return {g : α → β} (hm : Decodes m xs a) (h : g a = b) :
    Decodes (m >>= fun a => Pure.pure (g a)) xs b := by
  rw [← h]
  exact decodes_map hm decodes_pure

theorem decodes_iterate {n : Nat} : Decodes (iterate n : Reader ι ε Unit) [] () := by
  intro before after
  rw [List.append_nil]
  exact reads_iterate

theorem decodes_skip {n : Nat} (h : xs.length = n) : Decodes (skip past n) xs () := by
  intro before after c hc
  have hlen : ¬c.offset + n > c.items.length := by
    rw [hc.items,hc.offset,List.length_append,List.length_append]
    omega
  refine ⟨{c with offset := c.offset + n},?_,by rw [hc.items,List.append_assoc],?_⟩
  · unfold skip
    rw [if_neg hlen]
  · rw [hc.offset,List.length_append,h]

theorem decodes_mapError {h : ε → ε'} (hm : Decodes m xs a) : Decodes (mapError h m) xs a :=
  fun before after => reads_mapError (hm before after)

theorem decodes_spanned (hm : Decodes m xs a) : Decodes (spanned m) xs a :=
  fun before after => reads_spanned (hm before after)

theorem decodes_repeatFrom {body : Nat → Reader ι ε α} {encode : τ → List ι} {value : Nat → τ → α}
    {ts : List τ} (h : ∀ t ∈ ts, ∀ i, Decodes (body i) (encode t) (value i t)) (index : Nat) :
    Decodes (repeatFrom body index ts.length) (ts.flatMap encode)
      (ts.mapIdx (fun i t => value (index + i) t)) := by
  induction ts generalizing index with
  | nil => exact decodes_pure
  | cons t ts ih =>
    have hrest := ih (fun t ht => h t (List.mem_cons_of_mem _ ht)) (index + 1)
    have hvalue : (t::ts).mapIdx (fun i t => value (index + i) t) =
        value index t::ts.mapIdx (fun i t => value (index + 1 + i) t) := by
      rw [List.mapIdx_cons]
      congr 1
      exact congrArg (fun g => ts.mapIdx g) (funext₂ (fun i t => by congr 1; omega))
    rw [hvalue,List.flatMap_cons]
    have hbody := h t List.mem_cons_self index
    have hlast (a : α) : Decodes (repeatFrom body (index + 1) ts.length >>= fun rest =>
        Pure.pure (a::rest)) (ts.flatMap encode)
          (a::ts.mapIdx fun i t => value (index + 1 + i) t) :=
      decodes_map hrest decodes_pure
    show Decodes (iterate 1 >>= fun _ => body index >>= fun a =>
      repeatFrom body (index + 1) ts.length >>= fun rest => Pure.pure (a::rest))
        ([] ++ (encode t ++ ts.flatMap encode)) _
    exact decodes_bind decodes_iterate (decodes_bind hbody (hlast _))

theorem decodes_times {body : Nat → Reader ι ε α} {encode : τ → List ι} {value : Nat → τ → α}
    {ts : List τ} (h : ∀ t ∈ ts, ∀ i, Decodes (body i) (encode t) (value i t)) :
    Decodes (times ts.length body) (ts.flatMap encode) (ts.mapIdx value) := by
  have hfrom := decodes_repeatFrom h 0
  simp only [Nat.zero_add] at hfrom
  exact hfrom

theorem decodes_times_map {body : Nat → Reader ι ε α} {encode : τ → List ι} {value : τ → α}
    {ts : List τ} (h : ∀ t ∈ ts, ∀ i, Decodes (body i) (encode t) (value t)) :
    Decodes (times ts.length body) (ts.flatMap encode) (ts.map value) := by
  have hmap : ts.map value = ts.mapIdx (fun _ t => value t) :=
    List.ext_getElem (by simp) (by simp)
  rw [hmap]
  exact decodes_times h

end Reads

/-- The position and every range read lie in the list. -/
structure Sound (c : Cursor ι) : Prop where
  offset : c.offset ≤ c.items.length
  reads : ∀ r ∈ c.reads, r.1 + r.2 ≤ c.items.length

/-- From `c` to `d` the position moved on, and the iterations made with the credit left are
paid by the items consumed and the credit given. -/
structure Within (given : Nat) (c d : Cursor ι) (left : Nat) : Prop where
  sound : Sound d
  items : d.items = c.items
  offset : c.offset ≤ d.offset
  paid : d.iterations + left + c.offset ≤ c.iterations + given + d.offset

def credit (left : Nat) : Except ε α → Nat
  | .ok _ => left
  | .error _ => 0

/-- `m` marks no span and stays within what it consumes. -/
def Metered (given : Nat) (m : Reader ι ε α) (left : Nat) : Prop :=
  ∀ c, Sound c → Within given c (m c).2 (credit left (m c).1) ∧ (m c).2.spans = c.spans

/-- Spans that follow each other from one position to another. -/
def Tiles : Nat → List (Nat × Nat) → Nat → Prop
  | first,[],last => first = last
  | first,(start,stop)::rest,last => start = first ∧ start ≤ stop ∧ Tiles stop rest last

/-- `m` stays within what it consumes and marks all of it when it succeeds. -/
def Tiled (given : Nat) (m : Reader ι ε α) (left : Nat) : Prop :=
  ∀ c, Sound c → Within given c (m c).2 (credit left (m c).1) ∧
    ∀ a, (m c).1 = .ok a → ∃ new, (m c).2.spans = c.spans ++ new ∧
      Tiles c.offset new (m c).2.offset

section Metered
variable {m : Reader ι ε α} {f : α → Reader ι ε β} {given between left : Nat} {past : Nat → ε}
  {c d e : Cursor ι}

theorem sound_start (items : List ι) : Sound (start items) :=
  ⟨Nat.zero_le _,by simp [start]⟩

theorem Within.refl (hc : Sound c) (h : left ≤ given) : Within given c c left :=
  ⟨hc,rfl,Nat.le_refl _,by omega⟩

theorem Within.trans (h : Within given c d between) (h' : Within between d e left) :
    Within given c e left :=
  ⟨h'.sound,h'.items.trans h.items,Nat.le_trans h.offset h'.offset,by
    have := h.paid
    have := h'.paid
    omega⟩

theorem bind_ok {a : α} (h : m c = (.ok a,d)) : (m >>= f) c = f a d := by
  show Reader.bind m f c = _
  simp only [Reader.bind,h]

theorem bind_error {x : ε} (h : m c = (.error x,d)) : (m >>= f) c = (.error x,d) := by
  show Reader.bind m f c = _
  simp only [Reader.bind,h]

theorem metered_pure (a : α) (h : left ≤ given) :
    Metered given (Pure.pure a : Reader ι ε α) left :=
  fun _ hc => ⟨.refl hc h,rfl⟩

theorem metered_throw (x : ε) : Metered given (throw x : Reader ι ε α) left :=
  fun _ hc => ⟨.refl hc (Nat.zero_le _),rfl⟩

/-- The rest may use what is known of the values that `m` returns. -/
theorem metered_bind_of {P : α → Prop} (hm : Metered given m between)
    (hP : ∀ c a d, m c = (.ok a,d) → P a) (hf : ∀ a, P a → Metered between (f a) left) :
    Metered given (m >>= f) left := by
  intro c hc
  obtain ⟨hw,hs⟩ := hm c hc
  cases h : m c with
  | mk result d =>
    rw [h] at hw hs
    cases result with
    | ok a =>
      rw [bind_ok h]
      obtain ⟨hw',hs'⟩ := hf a (hP c a d h) d hw.sound
      exact ⟨hw.trans hw',hs'.trans hs⟩
    | error x =>
      rw [bind_error h]
      exact ⟨hw,hs⟩

theorem metered_bind (hm : Metered given m between) (hf : ∀ a, Metered between (f a) left) :
    Metered given (m >>= f) left :=
  metered_bind_of hm (fun _ _ _ _ => trivial) (fun a _ => hf a)

theorem metered_when {condition : Bool} {m : Reader ι ε Unit} (hm : Metered given m left)
    (h : left ≤ given) : Metered given (when condition m) left := by
  unfold when
  split
  · exact hm
  · exact metered_pure _ h

theorem metered_offset : Metered given (offset : Reader ι ε Nat) given :=
  fun _ hc => ⟨.refl hc (Nat.le_refl _),rfl⟩

theorem metered_length : Metered given (length : Reader ι ε Nat) given :=
  fun _ hc => ⟨.refl hc (Nat.le_refl _),rfl⟩

theorem metered_iterate {n : Nat} : Metered (given + n) (iterate n : Reader ι ε Unit) given :=
  fun _ hc =>
    ⟨⟨⟨hc.offset,hc.reads⟩,rfl,Nat.le_refl _,by simp only [iterate,credit]; omega⟩,rfl⟩

theorem metered_slice {first last : Nat} :
    Metered given (slice first last : Reader ι ε (List ι)) given := by
  intro c hc
  refine ⟨⟨⟨hc.offset,fun r hr => ?_⟩,rfl,Nat.le_refl _,by simp only [slice,credit]; omega⟩,rfl⟩
  rcases List.mem_append.mp hr with hr | hr
  · exact hc.reads r hr
  · obtain rfl := List.mem_singleton.mp hr
    simp only [slice]
    omega

theorem metered_peek {n : Nat} : Metered given (peek past n : Reader ι ε (List ι)) given := by
  intro c hc
  unfold peek
  split
  · exact ⟨.refl hc (Nat.zero_le _),rfl⟩
  · rename_i hle
    refine ⟨⟨⟨hc.offset,fun r hr => ?_⟩,rfl,Nat.le_refl _,by simp only [credit]; omega⟩,rfl⟩
    rcases List.mem_append.mp hr with hr | hr
    · exact hc.reads r hr
    · obtain rfl := List.mem_singleton.mp hr
      simp only
      omega

theorem metered_skip {n : Nat} :
    Metered given (skip past n : Reader ι ε Unit) (given + n) := by
  intro c hc
  unfold skip
  split
  · exact ⟨.refl hc (Nat.zero_le _),rfl⟩
  · rename_i hle
    exact ⟨⟨⟨by simp only; omega,hc.reads⟩,rfl,by simp only; omega,
      by simp only [credit]; omega⟩,rfl⟩

theorem metered_mapError {h : ε → ε'} (hm : Metered given m left) :
    Metered given (mapError h m) left := by
  intro c hc
  obtain ⟨hw,hs⟩ := hm c hc
  unfold mapError
  cases hr : m c with
  | mk result d =>
    rw [hr] at hw hs
    cases result <;> exact ⟨hw,hs⟩

theorem metered_mono {given' left' : Nat} (hm : Metered given m left) (h : given ≤ given')
    (h' : left' ≤ left) : Metered given' m left' := by
  intro c hc
  obtain ⟨hw,hs⟩ := hm c hc
  refine ⟨⟨hw.sound,hw.items,hw.offset,?_⟩,hs⟩
  have hpaid := hw.paid
  cases hr : (m c).1 with
  | ok a =>
    simp only [hr,credit] at hpaid ⊢
    omega
  | error x =>
    simp only [hr,credit] at hpaid ⊢
    omega

theorem metered_repeatFrom {body : Nat → Reader ι ε α}
    (hbody : ∀ i, Metered given (body i) (given + 1))
    (index count : Nat) : Metered (given + 1) (repeatFrom body index count) (given + 1) := by
  induction count generalizing index with
  | zero => exact metered_pure _ (Nat.le_refl _)
  | succ count ih =>
    exact metered_bind metered_iterate (fun _ => metered_bind (hbody index)
      (fun _ => metered_bind (ih (index + 1)) (fun _ => metered_pure _ (Nat.le_refl _))))

theorem metered_times {body : Nat → Reader ι ε α} (hbody : ∀ i, Metered given (body i) (given + 1))
    (count : Nat) : Metered (given + 1) (times count body) (given + 1) :=
  metered_repeatFrom hbody 0 count

theorem tiles_append {first middle last : Nat} {xs ys : List (Nat × Nat)}
    (hx : Tiles first xs middle) (hy : Tiles middle ys last) : Tiles first (xs ++ ys) last := by
  induction xs generalizing first with
  | nil =>
    cases hx
    exact hy
  | cons x xs ih =>
    obtain ⟨hstart,hle,hrest⟩ := hx
    exact ⟨hstart,hle,ih hrest⟩

theorem tiles_sum {first last : Nat} {spans : List (Nat × Nat)} (h : Tiles first spans last) :
    first + (spans.map fun span => span.2 - span.1).sum = last := by
  induction spans generalizing first with
  | nil => exact h
  | cons span spans ih =>
    obtain ⟨hstart,hle,hrest⟩ := h
    have hsum := ih hrest
    rw [List.map_cons,List.sum_cons]
    omega

theorem bind_ok_iff {b : β} : (m >>= f) c = (.ok b,e) ↔
    ∃ a d, m c = (.ok a,d) ∧ f a d = (.ok b,e) := by
  cases h : m c with
  | mk result d =>
    cases result with
    | ok a =>
      rw [bind_ok h]
      constructor
      · exact fun hf => ⟨a,d,rfl,hf⟩
      · rintro ⟨_,_,heq,hf⟩
        cases heq
        exact hf
    | error x =>
      rw [bind_error h]
      constructor
      · intro hx
        cases hx
      · rintro ⟨_,_,heq,-⟩
        cases heq

theorem tiled_spanned (hm : Metered given m left) : Tiled given (spanned m) left := by
  intro c hc
  obtain ⟨hw,hs⟩ := hm c hc
  unfold spanned
  cases hr : m c with
  | mk result d =>
    rw [hr] at hw hs
    cases result with
    | ok a =>
      refine ⟨⟨⟨hw.sound.offset,hw.sound.reads⟩,hw.items,hw.offset,hw.paid⟩,fun _ _ => ?_⟩
      exact ⟨[(c.offset,d.offset)],congrArg (· ++ _) hs,rfl,hw.offset,rfl⟩
    | error x => exact ⟨hw,fun _ h => by cases h⟩

theorem tiled_pure (a : α) (h : left ≤ given) : Tiled given (Pure.pure a : Reader ι ε α) left :=
  fun c hc => ⟨.refl hc h,fun _ _ => ⟨[],(List.append_nil c.spans).symm,rfl⟩⟩

theorem tiled_bind (hm : Tiled given m between) (hf : ∀ a, Tiled between (f a) left) :
    Tiled given (m >>= f) left := by
  intro c hc
  obtain ⟨hw,hs⟩ := hm c hc
  cases h : m c with
  | mk result d =>
    rw [h] at hw hs
    cases result with
    | ok a =>
      rw [bind_ok h]
      obtain ⟨new,hnew,htiles⟩ := hs a rfl
      obtain ⟨hw',hs'⟩ := hf a d hw.sound
      refine ⟨hw.trans hw',fun b hb => ?_⟩
      obtain ⟨more,hmore,htiles'⟩ := hs' b hb
      simp only at hnew
      exact ⟨new ++ more,by rw [hmore,hnew,List.append_assoc],tiles_append htiles htiles'⟩
    | error x =>
      rw [bind_error h]
      exact ⟨hw,fun _ hx => by cases hx⟩

theorem tiled_still (hm : Metered given m left) (h : ∀ c, (m c).2.offset = c.offset) :
    Tiled given m left := by
  intro c hc
  obtain ⟨hw,hs⟩ := hm c hc
  exact ⟨hw,fun _ _ => ⟨[],by rw [hs,List.append_nil],(h c).symm⟩⟩

theorem tiled_repeatFrom {body : Nat → Reader ι ε α} (hbody : ∀ i, Tiled given (body i) (given + 1))
    (index count : Nat) : Tiled (given + 1) (repeatFrom body index count) (given + 1) := by
  induction count generalizing index with
  | zero => exact tiled_pure _ (Nat.le_refl _)
  | succ count ih =>
    exact tiled_bind (tiled_still metered_iterate (fun _ => rfl)) (fun _ => tiled_bind (hbody index)
      (fun _ => tiled_bind (ih (index + 1)) (fun _ => tiled_pure _ (Nat.le_refl _))))

/-- When `m` succeeds, the spans it marked fit the value it returned. -/
def Marks (m : Reader ι ε α) (P : α → List (Nat × Nat) → Prop) : Prop :=
  ∀ c a d, Sound c → m c = (.ok a,d) → Sound d ∧ ∃ new, d.spans = c.spans ++ new ∧ P a new

theorem metered_ok {a : α} (hm : Metered given m left) (hc : Sound c) (h : m c = (.ok a,d)) :
    Within given c d left ∧ d.spans = c.spans := by
  have hrun := hm c hc
  rw [h] at hrun
  exact hrun

theorem marks_metered (hm : Metered given m left) : Marks m (fun _ new => new = []) := by
  intro c a d hc h
  obtain ⟨hw,hs⟩ := metered_ok hm hc h
  exact ⟨hw.sound,[],by rw [hs,List.append_nil],rfl⟩

theorem marks_pure {P : α → List (Nat × Nat) → Prop} {a : α} (h : P a []) :
    Marks (Pure.pure a : Reader ι ε α) P := by
  intro c a' d hc heq
  cases heq
  exact ⟨hc,[],(List.append_nil c.spans).symm,h⟩

theorem marks_bind {P : α → List (Nat × Nat) → Prop} {Q : β → List (Nat × Nat) → Prop}
    (hm : Marks m P)
    (hf : ∀ a first, P a first → Marks (f a) (fun b rest => Q b (first ++ rest))) :
    Marks (m >>= f) Q := by
  intro c b e hc h
  obtain ⟨a,d,hd,he⟩ := bind_ok_iff.mp h
  obtain ⟨hsound,first,hfirst,hP⟩ := hm c a d hc hd
  obtain ⟨hsound',rest,hrest,hQ⟩ := hf a first hP d b e hsound he
  exact ⟨hsound',first ++ rest,by rw [hrest,hfirst,List.append_assoc],hQ⟩

theorem marks_spanned (R : α → Nat → Prop) (hm : Metered given m left)
    (hR : ∀ c a d, Sound c → m c = (.ok a,d) → R a (d.offset - c.offset)) :
    Marks (spanned m) (fun a new => ∃ span, new = [span] ∧ R a (span.2 - span.1)) := by
  intro c a d hc h
  unfold spanned at h
  cases hr : m c with
  | mk result d' =>
    rw [hr] at h
    cases result with
    | ok a' =>
      cases h
      obtain ⟨hw,hs⟩ := metered_ok hm hc hr
      exact ⟨⟨hw.sound.offset,hw.sound.reads⟩,_,congrArg (· ++ _) hs,_,rfl,hR c a d' hc hr⟩
    | error x => cases h

theorem marks_repeatFrom {body : Nat → Reader ι ε α} {R : α → Nat → Prop}
    (hbody : ∀ i, Marks (body i) (fun a new => ∃ span, new = [span] ∧ R a (span.2 - span.1)))
    (index count : Nat) : Marks (repeatFrom body index count)
      (fun results new => List.Forall₂ R results (new.map fun span => span.2 - span.1)) := by
  induction count generalizing index with
  | zero => exact marks_pure .nil
  | succ count ih =>
    refine marks_bind (marks_metered (@metered_iterate ι ε 0 1)) (fun _ none hnone => ?_)
    rw [hnone]
    refine marks_bind (hbody index) (fun a new hnew => ?_)
    obtain ⟨span,rfl,hR⟩ := hnew
    refine marks_bind (ih (index + 1)) (fun results new hall => ?_)
    refine marks_pure ?_
    rw [List.append_nil]
    exact .cons hR hall

end Metered

/-- The items that a successful run of `m` consumes. -/
def Consumes (m : Reader ι ε α) (n : Nat) : Prop :=
  ∀ c a d, m c = (.ok a,d) → d.offset = c.offset + n

section Consumes
variable {m : Reader ι ε α} {f : α → Reader ι ε β} {n k : Nat} {past : Nat → ε}

theorem consumes_pure {a : α} : Consumes (Pure.pure a : Reader ι ε α) 0 := by
  intro c a' d h
  cases h
  rfl

theorem consumes_bind (hm : Consumes m n) (hf : ∀ a, Consumes (f a) k) :
    Consumes (m >>= f) (n + k) := by
  intro c b e h
  obtain ⟨a,d,hd,he⟩ := bind_ok_iff.mp h
  rw [hf a d b e he,hm c a d hd,Nat.add_assoc]

theorem consumes_peek : Consumes (peek past n : Reader ι ε (List ι)) 0 := by
  intro c a d h
  unfold peek at h
  split at h
  · cases h
  · cases h
    rfl

theorem consumes_skip : Consumes (skip past n : Reader ι ε Unit) n := by
  intro c a d h
  unfold skip at h
  split at h
  · cases h
  · cases h
    rfl

end Consumes

/-- Whatever a successful run of `m` returns satisfies `P`. -/
def Yields (m : Reader ι ε α) (P : α → Prop) : Prop := ∀ c a d, m c = (.ok a,d) → P a

section Yields
variable {m : Reader ι ε α} {f : α → Reader ι ε β} {P : α → Prop} {Q : β → Prop}

theorem yields_true : Yields m (fun _ => True) := fun _ _ _ _ => trivial

theorem yields_pure {a : α} (h : P a) : Yields (Pure.pure a : Reader ι ε α) P := by
  intro c a' d heq
  cases heq
  exact h

theorem yields_bind (hm : Yields m P) (hf : ∀ a, P a → Yields (f a) Q) : Yields (m >>= f) Q := by
  intro c b e h
  obtain ⟨a,d,hd,he⟩ := bind_ok_iff.mp h
  exact hf a (hm c a d hd) d b e he

theorem yields_skip (hf : ∀ a, Yields (f a) Q) : Yields (m >>= f) Q :=
  yields_bind yields_true (fun a _ => hf a)

theorem yields_mapError {g : ε → ε'} (hm : Yields m P) : Yields (mapError g m) P := by
  intro c a d h
  unfold mapError at h
  cases hr : m c with
  | mk result d' =>
    cases result with
    | ok a' =>
      rw [hr] at h
      cases h
      exact hm _ _ _ hr
    | error x =>
      rw [hr] at h
      cases h

theorem yields_spanned (hm : Yields m P) : Yields (spanned m) P := by
  intro c a d h
  unfold spanned at h
  cases hr : m c with
  | mk result d' =>
    cases result with
    | ok a' =>
      rw [hr] at h
      cases h
      exact hm _ _ _ hr
    | error x =>
      rw [hr] at h
      cases h

theorem yields_repeatFrom {body : Nat → Reader ι ε α} {P : Nat → α → Prop}
    (hbody : ∀ i, Yields (body i) (P i)) (index count : Nat) :
    Yields (repeatFrom body index count) (fun as => ∀ e ∈ as.zipIdx index, P e.2 e.1) := by
  induction count generalizing index with
  | zero => exact yields_pure (by simp)
  | succ count ih =>
    refine yields_skip fun _ => yields_bind (hbody index) fun a ha => ?_
    refine yields_bind (ih (index + 1)) fun rest hrest => yields_pure ?_
    rw [List.zipIdx_cons,List.forall_mem_cons]
    exact ⟨ha,hrest⟩

theorem yields_times {body : Nat → Reader ι ε α} (hbody : ∀ i, Yields (body i) P) (count : Nat) :
    Yields (times count body) (fun as => ∀ a ∈ as, P a) := by
  intro c as d h a ha
  obtain ⟨i,hi⟩ := List.mem_iff_getElem?.mp ha
  exact yields_repeatFrom hbody 0 count c as d h (a,i) (List.mk_mem_zipIdx_iff_getElem?.mpr hi)

end Yields

end Reader

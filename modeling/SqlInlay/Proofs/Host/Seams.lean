import SqlInlay.Proofs.Candidates
import SqlInlay.Proofs.Survival

/-!
# Sources with a seam

Two sources that differ at one place only, a `Seam`, where one has a space and the other a block
comment between two spaces.  Every place of the one source has its place in the other, but for those
inside of the comment, and no scan ever stands there.

**Places.**  `Seam.Beside` says of two places, one in each source, that they correspond: both in
front of the seam, or both behind it.

* `Seam.Beside.ahead` — from there both scans come to the seam together, or take the same stride
  (`Seam.Ahead`), and are beside each other again.
* `Seam.Beside.skipTrivia`, `Seam.Beside.string`, `Seam.Beside.plain` — so what one scan passes
  over, the other does too: white space and comments, strings, plain characters.
* `Seam.Beside.offset_lt_iff` — corresponding places stand in the same order in both sources, and so
  are told apart alike.

**At the seam** stands a `Gap`, a space or a comment between two.  Whatever a scan does when it
comes there, it comes to stand behind the gap (`Gap.pass`): in an argument list as in a source, and
where white space is passed.
-/

namespace SqlInlay.Host

open SqlInlay.Text

/-! ## What stands at the seam -/

/-- The rest of a block comment is passed through its last end, whatever follows. -/
lemma BlockRest.blockLength_append {nested : Bool} {depth : Nat} {s : Text}
    (h : BlockRest nested depth s) (r : Text) : blockLength nested depth (s ++ r) = s.length := by
  induction h with
  | close => simp [blockLength]
  | @leave depth s h ih =>
    have hclose : blockLength nested (depth + 2) ('*' :: '/' :: (s ++ r)) =
        2 + blockLength nested (depth + 1) (s ++ r) := by simp [blockLength]
    simp only [List.cons_append, List.length_cons, hclose, ih]
    omega
  | @enter depth s hnested h ih =>
    have hopen : blockLength nested (depth + 1) ('/' :: '*' :: (s ++ r)) =
        2 + blockLength nested (depth + 2) (s ++ r) := by simp [blockLength, hnested]
    simp only [List.cons_append, List.length_cons, hopen, ih]
    omega
  | @char depth c d s henter hleave h ih =>
    have hopen : ¬(c = '/' ∧ d = '*' ∧ (depth + 1 = 0 ∨ nested = true)) := fun hopen =>
      henter ⟨hopen.1, hopen.2.1, hopen.2.2.resolve_left (Nat.succ_ne_zero depth)⟩
    simp only [List.cons_append, blockLength, List.length_cons] at ih ⊢
    rw [if_neg hopen, if_neg hleave, ih]
    omega

lemma commentTail?_block {language : Language} (hlanguage : language ≠ .python) {body : Text}
    (h : BlockRest (language == .kotlin) 1 body) (r : Text) :
    commentTail? language '/' ('*' :: (body ++ r)) = some (body.length + 1) := by
  have hlength : blockLength (language == .kotlin) 0 ('/' :: '*' :: (body ++ r)) =
      2 + body.length := by
    simp [blockLength, h.blockLength_append r]
  cases language with
  | python => exact absurd rfl hlanguage
  | java | kotlin =>
    simp only [commentTail?, if_true, hlength]
    congr 1
    omega

/-- A space, or a block comment between two. -/
inductive Gap (language : Language) : Text → Prop
  | space : Gap language [' ']
  | remark {body : Text} (hbody : BlockRest (language == .kotlin) 1 body) :
      Gap language (' ' :: '/' :: '*' :: (body ++ [' ']))

namespace Gap

variable {language : Language} {g : Text}

lemma exists_cons (h : Gap language g) : ∃ t, g = ' ' :: t := by
  cases h <;> exact ⟨_, rfl⟩

lemma getLast? (h : Gap language g) : g.getLast? = some ' ' := by
  cases h with
  | space => rfl
  | @remark body hbody =>
    rw [show ' ' :: '/' :: '*' :: (body ++ [' ']) = (' ' :: '/' :: '*' :: body) ++ [' '] from rfl,
      List.getLast?_concat]

lemma bytes_pos (h : Gap language g) : 0 < bytes g := by
  obtain ⟨t, rfl⟩ := h.exists_cons
  exact Text.bytes_pos (List.cons_ne_nil ' ' t)

/-- What passes spaces and comments comes to stand behind the gap. -/
lemma pass {α : Sort*} (h : Gap language g) (hlanguage : language ≠ .python) {f : Cursor → α}
    (hspace : ∀ {c : Cursor} {t : Text}, c.rest = ' ' :: t → f c = f (c.advance 1))
    (hcomment : ∀ {c : Cursor} {x : Char} {t : Text} {n : Nat}, c.rest = x :: t →
      commentTail? language x t = some n → f c = f (c.advance (n + 1)))
    {c : Cursor} {r : Text} (hrest : c.rest = g ++ r) : f c = f (c.advance g.length) := by
  cases h with
  | space => exact hspace hrest
  | @remark body hbody =>
    have hrest' : c.rest = [' '] ++ '/' :: '*' :: (body ++ ' ' :: r) := by simpa using hrest
    have hslash : (c.advance 1).rest = ('/' :: '*' :: body) ++ ' ' :: r :=
      (Cursor.advance_append hrest').1
    have hbehind : ((c.advance 1).advance (body.length + 2)).rest = ' ' :: r :=
      (Cursor.advance_append hslash).1
    rw [hspace hrest', hcomment hslash (commentTail?_block hlanguage hbody _), hspace hbehind,
      Cursor.advance_advance, Cursor.advance_advance]
    congr 2
    simp
    omega

end Gap

/-- Without letters in front of strings, what is read depends on nothing passed before. -/
lemma quoted?_any_before {language : Language} (hlanguage : language ≠ .python) (b b' : Option Char)
    (t : Text) : quoted? language b t = quoted? language b' t := by
  cases language with
  | python => exact absurd rfl hlanguage
  | java | kotlin => rfl

lemma sealedTail?_any_before {language : Language} (hlanguage : language ≠ .python)
    (b b' : Option Char) (x : Char) (t : Text) :
    sealedTail? language b x t = sealedTail? language b' x t := by
  simp only [sealedTail?, literalTail?, quoted?_any_before hlanguage b b']

lemma trivia_cons_eq_zero_iff {language : Language} (hlanguage : language ≠ .python) {x : Char}
    {t : Text} :
    (trivia language (x :: t)).1 = 0 ↔ isBlank x = false ∧ commentTail? language x t = none := by
  rw [trivia]
  by_cases hblank : isBlank x = true
  · simp [hblank]
  · cases hcomment : commentTail? language x t <;> simp [hblank, hlanguage]

lemma Cursor.skipTrivia_of_zero {language : Language} {c : Cursor}
    (h : (trivia language c.rest).1 = 0) : c.skipTrivia language = c := by
  rw [skipTrivia, h]
  simp [advance]

/-- White space and a comment in front of more of them. -/
lemma Cursor.skipTrivia_stride {language : Language} {c : Cursor} {x : Char} {v r : Text}
    (hrest : c.rest = x :: (v ++ r)) (hlength : strideTail language x (v ++ r) = v.length)
    (hne : (trivia language c.rest).1 ≠ 0) :
    c.skipTrivia language = (c.advance (v.length + 1)).skipTrivia language := by
  have hbehind : (c.advance (v.length + 1)).rest = r :=
    (Cursor.advance_append (s := x :: v) hrest).1
  rw [hrest] at hne
  have hstride := trivia_stride hne
  rw [hlength, List.drop_left] at hstride
  rw [skipTrivia, skipTrivia, hrest, hstride, hbehind, Cursor.advance_advance]
  congr 1
  omega

namespace Gap

variable {language : Language} {g r : Text} {c : Cursor}

lemma skipTrivia (h : Gap language g) (hlanguage : language ≠ .python) (hrest : c.rest = g ++ r) :
    c.skipTrivia language = (c.advance g.length).skipTrivia language := by
  refine h.pass hlanguage (f := (Cursor.skipTrivia · language)) (fun {c t} hrest => ?_)
    (fun {c x t n} hrest hcomment => ?_) hrest
  · refine Cursor.skipTrivia_stride (v := []) hrest (strideTail_eq_zero (by decide) t) ?_
    rw [hrest, ne_eq, trivia_cons_eq_zero_iff hlanguage]
    simp [show isBlank ' ' = true by decide]
  · have hlength : strideTail language x t = n := by simp [strideTail, sealedTail?, hcomment]
    have hle := strideTail_le language x t
    rw [hlength] at hle
    have hsplit : t = t.take n ++ t.drop n := (List.take_append_drop n t).symm
    have hcount : (t.take n).length = n := List.length_take_of_le hle
    have hne : (trivia language c.rest).1 ≠ 0 := by
      rw [hrest, ne_eq, trivia_cons_eq_zero_iff hlanguage]
      simp [hcomment]
    have hskip := Cursor.skipTrivia_stride (hsplit ▸ hrest) (by rw [← hsplit, hlength, hcount]) hne
    rwa [hcount] at hskip

/-- A place behind the gap is met from the place in front of it. -/
lemma meets (h : Gap language g) (hlanguage : language ≠ .python) (hrest : c.rest = g ++ r) :
    c.Meets language (c.advance g.length) := by
  cases h with
  | space => exact Cursor.meets_plain hrest (by simp)
  | @remark body hbody =>
    have hrest' : c.rest = [' '] ++ '/' :: '*' :: (body ++ ' ' :: r) := by simpa using hrest
    have hslash : (c.advance 1).rest = ('/' :: '*' :: body) ++ ' ' :: r :=
      (Cursor.advance_append hrest').1
    have hbehind : ((c.advance 1).advance (body.length + 2)).rest = [' '] ++ r :=
      (Cursor.advance_append hslash).1
    have hsealed : sealedTail? language (c.advance 1).before '/' ('*' :: (body ++ ' ' :: r)) =
        some (body.length + 1) := by
      rw [sealedTail?, commentTail?_block hlanguage hbody]
      rfl
    have hmeets := ((Cursor.meets_plain hrest' (by simp)).trans
      (Cursor.meets_sealed hslash hsealed)).trans (Cursor.meets_plain hbehind (by simp))
    simp only [Cursor.advance_advance, List.length_singleton] at hmeets
    convert hmeets using 2
    simp
    omega

/-- The gap is passed over between arguments. -/
lemma argumentsFrom (h : Gap language g) (hlanguage : language ≠ .python) {depth : Nat}
    {start : Cursor} (hrest : c.rest = g ++ r) :
    argumentsFrom language depth start c =
      argumentsFrom language depth start (c.advance g.length) := by
  refine h.pass hlanguage (f := Host.argumentsFrom language depth start) (fun hrest => ?_)
    (fun hrest hcomment => ?_) hrest
  · exact argumentsFrom_idle (s := [' ']) (List.forall_mem_singleton.2 rfl) hrest
  · rw [argumentsFrom_cons hrest, sealedTail?, hcomment]
    rfl

/-- The gap is passed over between annotations. -/
lemma locateFrom (h : Gap language g) (hlanguage : language ≠ .python) {buffer : Nat}
    {marks : Annotations} (hrest : c.rest = g ++ r) :
    locateFrom buffer language marks c = locateFrom buffer language marks (c.advance g.length) := by
  refine h.pass hlanguage (f := Host.locateFrom buffer language marks) (fun hrest => ?_)
    (fun hrest hcomment => ?_) hrest
  · exact locateFrom_idle (s := [' ']) (List.forall_mem_singleton.2 rfl) hrest
  · rw [locateFrom_cons hrest, sealedTail?, hcomment]
    rfl

end Gap

/-! ## Places beside each other -/

namespace SameStride

variable {language : Language} {x : Char} {v r r' : Text}

lemma refl (h : strideTail language x (v ++ r) = v.length) : SameStride language x v r r :=
  ⟨rfl, rfl, rfl, h⟩

/-- The stride is a comment or a literal in both texts, or a single character. -/
lemma sealed_cases (h : SameStride language x v r r') (hlanguage : language ≠ .python)
    (b b' : Option Char) :
    (sealedTail? language b x (v ++ r) = some v.length ∧
        sealedTail? language b' x (v ++ r') = some v.length) ∨
      sealedTail? language b x (v ++ r) = none ∧ sealedTail? language b' x (v ++ r') = none ∧
        v = [] := by
  have hlength := h.length
  rw [sealedTail?_any_before hlanguage b (some '_'), sealedTail?_any_before hlanguage b' (some '_'),
    ← h.sealed]
  rw [strideTail] at hlength
  cases hread : sealedTail? language (some '_') x (v ++ r) with
  | some n => exact .inl ⟨by simpa [hread] using hlength, by simpa [hread] using hlength⟩
  | none =>
    refine .inr ⟨rfl, rfl, ?_⟩
    rw [hread] at hlength
    exact List.length_eq_zero_iff.1 hlength.symm

end SameStride

lemma SameStrides.symm {language : Language} {r r' s : Text} (h : SameStrides language r r' s) :
    SameStrides language r' r s := by
  induction h with
  | nil => exact .nil
  | cons hx _ ih => exact .cons hx.symm ih

/-- Two sources that have the same text in front of some place, and the same text behind it.
Strides in front of the place are taken alike, so that scans of both come to stand there or pass it
together. -/
structure Seam (language : Language) where
  front : Text
  back : Text
  /-- What the one source has at the place. -/
  left : Text
  /-- What the other source has there. -/
  right : Text
  foreign : language ≠ .python
  gap : Gap language left
  gap' : Gap language right
  strides : SameStrides language (left ++ back) (right ++ back) front

namespace Seam

variable {language : Language} (S : Seam language)

/-- The one source. -/
def source : Text := S.front ++ (S.left ++ S.back)

/-- The other source. -/
def source' : Text := S.front ++ (S.right ++ S.back)

/-- The seam with its sides exchanged. -/
def flip : Seam language where
  front := S.front
  back := S.back
  left := S.right
  right := S.left
  foreign := S.foreign
  gap := S.gap'
  gap' := S.gap
  strides := S.strides.symm

/-- The two places correspond: both are in front of the seam, or both behind it.  A place that lies
in the text at the seam has no counterpart. -/
inductive Beside : Cursor → Cursor → Prop
  | front {u v : Text} (h : S.front = u ++ v)
      (hv : SameStrides language (S.left ++ S.back) (S.right ++ S.back) v) :
      Beside ⟨u.reverse, v ++ (S.left ++ S.back)⟩ ⟨u.reverse, v ++ (S.right ++ S.back)⟩
  | behind {u v : Text} (h : S.back = u ++ v) :
      Beside ⟨(S.front ++ (S.left ++ u)).reverse, v⟩ ⟨(S.front ++ (S.right ++ u)).reverse, v⟩

/-- What the scans do next at two places. -/
inductive Ahead (c c' : Cursor) : Prop
  | nil (hc : c.rest = []) (hc' : c'.rest = [])
  | gap (hc : c.rest = S.left ++ S.back) (hc' : c'.rest = S.right ++ S.back)
      (hoffset : c.offset = bytes S.front)
      (hnext : S.Beside (c.advance S.left.length) (c'.advance S.right.length))
  | stride {x : Char} {v r r' : Text} (hc : c.rest = x :: (v ++ r)) (hc' : c'.rest = x :: (v ++ r'))
      (hx : SameStride language x v r r')
      (hnext : S.Beside (c.advance (v.length + 1)) (c'.advance (v.length + 1)))

lemma beside_start : S.Beside (.start S.source) (.start S.source') :=
  .front (u := []) rfl S.strides

namespace Beside

variable {S} {c c' d d' : Cursor}

lemma flip (h : S.Beside c c') : S.flip.Beside c' c := by
  cases h with
  | front h hv => exact .front h hv.symm
  | behind h => exact .behind h

lemma text_left (h : S.Beside c c') : c.text = S.source := by
  cases h with
  | front h => simp [Cursor.text, source, h]
  | behind h => simp [Cursor.text, source, h]

lemma text_right (h : S.Beside c c') : c'.text = S.source' := h.flip.text_left

/-- The same character stands in front of both. -/
lemma before (h : S.Beside c c') : c'.before = c.before := by
  cases h with
  | front => rfl
  | @behind u v h =>
    rcases List.eq_nil_or_concat u with rfl | ⟨u, y, rfl⟩
    · obtain ⟨w, hw⟩ := List.getLast?_eq_some_iff.1 S.gap.getLast?
      obtain ⟨w', hw'⟩ := List.getLast?_eq_some_iff.1 S.gap'.getLast?
      simp [Cursor.before, hw, hw']
    · simp [Cursor.before]

/-- **The scans go on together**, at the seam and anywhere else: what the one steps over, the other
does, and both come to corresponding places again. -/
lemma ahead (h : S.Beside c c') : S.Ahead c c' := by
  cases h with
  | @front u v h hv =>
    cases hv with
    | nil =>
      have hfront : S.front = u := by simpa using h
      refine .gap rfl rfl (by rw [Cursor.offset, bytes_reverse, hfront]) ?_
      have hnext : S.Beside _ _ := .behind (u := []) rfl
      simpa [Cursor.advance, hfront] using hnext
    | @cons x v w hx hw =>
      refine .stride (x := x) (v := v) (by simp) (by simp) hx ?_
      have hnext : S.Beside _ _ := .front (u := u ++ x :: v) (by simpa using h) hw
      simpa [Cursor.advance, List.append_assoc] using hnext
  | @behind u v h =>
    cases v with
    | nil => exact .nil rfl rfl
    | cons x t =>
      obtain ⟨v, w, rfl, hv⟩ : ∃ v w, t = v ++ w ∧ v.length = strideTail language x t :=
        ⟨_, _, (List.take_append_drop _ t).symm,
          List.length_take_of_le (strideTail_le language x t)⟩
      refine .stride rfl rfl (.refl hv.symm) ?_
      have hnext : S.Beside _ _ := .behind (u := u ++ x :: v) (v := w) (by simp [h])
      simpa [Cursor.advance] using hnext

/-- Both places are in front of the same character. -/
lemma head? (h : S.Beside c c') : c'.rest.head? = c.rest.head? := by
  cases h.ahead with
  | nil hc hc' => rw [hc, hc']
  | gap hc hc' =>
    obtain ⟨t, ht⟩ := S.gap.exists_cons
    obtain ⟨t', ht'⟩ := S.gap'.exists_cons
    rw [hc, hc', ht, ht']
    rfl
  | stride hc hc' => rw [hc, hc']; rfl

/-- **Corresponding places** stand in the same order in both sources, though those behind the seam
have other offsets. -/
lemma offset_lt_iff (h : S.Beside c c') (hd : S.Beside d d') :
    d'.offset < c'.offset ↔ d.offset < c.offset := by
  have hleft := S.gap.bytes_pos
  have hright := S.gap'.bytes_pos
  cases h with
  | front h =>
    cases hd with
    | front => exact .rfl
    | behind =>
      have hfront := congrArg bytes h
      simp only [Cursor.offset, bytes_reverse, bytes_append] at *
      omega
  | behind h =>
    cases hd with
    | front hd =>
      have hfront := congrArg bytes hd
      simp only [Cursor.offset, bytes_reverse, bytes_append] at *
      omega
    | behind hd =>
      simp only [Cursor.offset, bytes_reverse, bytes_append] at *
      omega

/-- Where the one scan is determines where the other one is. -/
lemma unique (h : S.Beside c c') (hd : S.Beside d d') (heq : c = d) : c' = d' := by
  have hle := h.offset_lt_iff hd
  have hge := hd.offset_lt_iff h
  subst heq
  have htext : c'.passed.reverse ++ c'.rest = d'.passed.reverse ++ d'.rest :=
    h.text_right.trans hd.text_right.symm
  have hbytes : bytes c'.passed.reverse = bytes d'.passed.reverse := by
    rw [bytes_reverse, bytes_reverse]
    simp only [Cursor.offset] at hle hge
    omega
  obtain ⟨m, hm, hrest⟩ := prefix_of_bytes_le htext hbytes.le
  obtain rfl : m = [] := by
    rw [hm, bytes_append] at hbytes
    exact bytes_eq_zero.1 (by omega)
  rw [List.append_nil, List.reverse_inj] at hm
  cases c'
  cases d'
  simp_all

/-! ### What is passed over -/

/-- **White space and comments** are passed in both.  What stands at the seam differs, but it is
white space and comments in either source, and is passed as a whole. -/
lemma skipTrivia (h : S.Beside c c') :
    S.Beside (c.skipTrivia language) (c'.skipTrivia language) := by
  induction hn : c.rest.length using Nat.strongRecOn generalizing c c' with
  | ind n ih =>
    subst hn
    cases h.ahead with
    | nil hc hc' =>
      have hnone : (trivia language []).1 = 0 := by rw [trivia]
      rwa [Cursor.skipTrivia_of_zero (hc ▸ hnone), Cursor.skipTrivia_of_zero (hc' ▸ hnone)]
    | gap hc hc' _ hnext =>
      rw [S.gap.skipTrivia S.foreign hc, S.gap'.skipTrivia S.foreign hc']
      obtain ⟨t, ht⟩ := S.gap.exists_cons
      exact ih _ (Cursor.advance_lt (by simp [ht]) (by simp [hc, ht])) hnext rfl
    | @stride x v r r' hc hc' hx hnext =>
      have hzero : (trivia language c'.rest).1 = 0 ↔ (trivia language c.rest).1 = 0 := by
        rw [hc, hc', trivia_cons_eq_zero_iff S.foreign, trivia_cons_eq_zero_iff S.foreign,
          hx.comment]
      by_cases hnone : (trivia language c.rest).1 = 0
      · rwa [Cursor.skipTrivia_of_zero hnone, Cursor.skipTrivia_of_zero (hzero.2 hnone)]
      · rw [Cursor.skipTrivia_stride hc hx.length hnone,
          Cursor.skipTrivia_stride hc' hx.symm.length (fun h => hnone (hzero.1 h))]
        exact ih _ (Cursor.advance_lt (Nat.succ_pos _) (by simp [hc])) hnext rfl

/-- **Strings** are read the same.  Strides in front of the seam are the same in both sources, and
at the seam no string starts. -/
lemma quoted?_eq (h : S.Beside c c') :
    quoted? language c'.before c'.rest = quoted? language c.before c.rest := by
  rw [quoted?_any_before S.foreign c'.before (some '_'),
    quoted?_any_before S.foreign c.before (some '_')]
  have hspace : ∀ {g : Text}, Gap language g →
      quoted? language (some '_') (g ++ S.back) = none := by
    intro g hg
    obtain ⟨t, rfl⟩ := hg.exists_cons
    exact quoted?_eq_none (by decide)
  cases h.ahead with
  | nil hc hc' => rw [hc, hc']
  | gap hc hc' => rw [hc, hc', hspace S.gap, hspace S.gap']
  | stride hc hc' hx => rw [hc, hc', hx.quoted]

/-- **A string** is passed in both, and both come to corresponding places behind it. -/
lemma string (h : S.Beside c c') {q : Quoted}
    (hq : quoted? language c.before c.rest = some (some q)) :
    S.Beside (c.advance q.source.length) (c'.advance q.source.length) := by
  have hpos := length_source_pos hq
  rw [quoted?_any_before S.foreign c.before (some '_')] at hq
  obtain ⟨x, t, hrest, -, htail⟩ := strideTail_of_quoted? hq
  cases h.ahead with
  | nil hc => cases hc.symm.trans hrest
  | gap hc =>
    obtain ⟨u, hu⟩ := S.gap.exists_cons
    rw [hc, hu, List.cons_append, quoted?_eq_none (by decide)] at hq
    cases hq
  | stride hc hc' hx hnext =>
    obtain ⟨rfl, rfl⟩ := List.cons.inj (hrest.symm.trans hc)
    have hlength := hx.length.symm.trans htail
    simp only [Option.map_some, Option.getD_some] at hlength
    rwa [hlength, Nat.sub_add_cancel hpos] at hnext

/-- **Plain characters** are passed in both, if the space at the seam is not among them.  They are
the same characters, and what stands behind them starts alike. -/
lemma plain {p t : Text} (h : S.Beside c c') (hrest : c.rest = p ++ t)
    (hp : ∀ x ∈ p, x ∉ "\"'#/".toList)
    (hspace : ∀ p₁ p₂, p = p₁ ++ ' ' :: p₂ → c.offset + bytes p₁ ≠ bytes S.front) :
    ∃ t', c'.rest = p ++ t' ∧ t'.head? = t.head? ∧
      S.Beside (c.advance p.length) (c'.advance p.length) := by
  induction p generalizing c c' with
  | nil =>
    obtain rfl : c.rest = t := hrest
    exact ⟨c'.rest, rfl, h.head?, by simpa [Cursor.advance] using h⟩
  | cons x p ih =>
    rw [List.forall_mem_cons] at hp
    cases h.ahead with
    | nil hc => cases hc.symm.trans hrest
    | gap hc _ hoffset =>
      obtain ⟨u, hu⟩ := S.gap.exists_cons
      rw [hc, hu] at hrest
      obtain rfl : ' ' = x := (List.cons.inj hrest).1
      exact absurd (hoffset.trans rfl) (hspace [] p rfl)
    | @stride y v r r' hc hc' hx hnext =>
      obtain ⟨rfl, hbehind⟩ : x = y ∧ p ++ t = v ++ r := List.cons.inj (hrest.symm.trans hc)
      obtain rfl : v = [] := by
        rw [← List.length_eq_zero_iff, ← hx.length, strideTail_eq_zero hp.1]
      have hone := Cursor.advance_append (s := [x]) (t := p ++ t) hrest
      obtain ⟨t', ht', hhead, hplain⟩ := ih hnext hone.1 hp.2 (fun p₁ p₂ hsplit => by
        have hne := hspace (x :: p₁) p₂ (by rw [hsplit]; rfl)
        rw [← List.singleton_append, bytes_append, ← Nat.add_assoc, ← hone.2] at hne
        exact hne)
      have hone' := (Cursor.advance_append (s := [x]) hc').1
      rw [Cursor.advance_advance, Cursor.advance_advance, List.length_nil, Nat.zero_add,
        Nat.add_comm 1] at hplain
      refine ⟨t', ?_, hhead, hplain⟩
      rw [hc']
      exact congrArg (x :: ·) (hone'.symm.trans ht')

/-- Signs are passed in both. -/
lemma signs {p t : Text} (h : S.Beside c c') (hrest : c.rest = p ++ t)
    (hp : ∀ x ∈ p, x ∉ "\"'#/ ".toList) :
    ∃ t', c'.rest = p ++ t' ∧ S.Beside (c.advance p.length) (c'.advance p.length) := by
  obtain ⟨t', ht', -, hnext⟩ := h.plain hrest
    (fun x hx hmem => hp x hx (List.mem_append_left [' '] hmem))
    (fun p₁ p₂ hsplit => absurd (by decide) (hp ' ' (by simp [hsplit])))
  exact ⟨t', ht', hnext⟩

end Beside

end Seam

end SqlInlay.Host

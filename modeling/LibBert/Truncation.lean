import LibBert.Wire.Cut

/-!
# Which truncated input is reported as such

`decoder.h` documents `BERT_ERRNO_SHORT_READ` for input that ends too early.  A
pull returns it exactly where the reader falls short within a token and no
container on the way up makes something else of it, or where a list takes an
element that was answered with 1 at the end of the input for its last.
-/

namespace LibBert

open Reading Bytes

variable {F σ ρ : Type} [Platform F] {R : BertReader σ}

/-! ## Where a short read comes from -/

section Short

variable {n depth : ℕ} {s t u : σ} {o : Opening} {ds : List (Data F)}

/-- Where a container that falls short behind the elements `ds` does so: at one
more element, or at the tail byte of a list. -/
inductive Shortfall (F : Type) [Platform F] (R : BertReader σ) (o : Opening) (ds : List (Data F))
    (s : σ) : Prop
  | element (ws : List Wire) (ds' : List (Data F)) (u : σ) (timePart : Bool) (verdict : Verdict)
      (hdelivers : Delivers R s (Wire.chunksList ws) u) (hds' : Wire.denoteList ws = some ds')
      (hwants : o.wants (ds ++ ds') = some timePart) (hcut : Cuts F R u verdict)
      (hcarry : o.carry (ds ++ ds') timePart verdict = .short)
  | tail (ws : List Wire) (ds' : List (Data F)) (u : σ)
      (hdelivers : Delivers R s (Wire.chunksList ws) u) (hds' : Wire.denoteList ws = some ds')
      (ho : o = .list (ds ++ ds').length) (hfails : Fails R bertErrnoShortRead u 1)

theorem Shortfall.cons {w : Wire} {d : Data F} (hdenote : w.denote = some d)
    (hdelivers : Delivers R s w.chunks u) (h : Shortfall F R o (ds ++ [d]) u) :
    Shortfall F R o ds s := by
  rcases h with ⟨ws, ds', v, timePart, verdict, hws, hds', hwants, hcut, hcarry⟩ |
    ⟨ws, ds', v, hws, hds', ho, hfails⟩
  · obtain ⟨hcons, hcons'⟩ := Wire.delivers_denoteList_cons hdelivers hdenote hws hds'
    rw [← List.append_cons] at hwants hcarry
    exact .element (w :: ws) (d :: ds') v timePart verdict hcons hcons' hwants hcut hcarry
  · obtain ⟨hcons, hcons'⟩ := Wire.delivers_denoteList_cons hdelivers hdenote hws hds'
    rw [← List.append_cons] at ho
    exact .tail (w :: ws) (d :: ds') v hcons hcons' ho hfails

end Short

/-! ## Over the window -/

end LibBert

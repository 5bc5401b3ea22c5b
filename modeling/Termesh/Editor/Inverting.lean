import Termesh.Editor.Composing
import Termesh.Lib.Inverses

/-!
# Inverting change sets

* `ChangeSet.invert_eq`: an inverse is known by its script;
* `ChangeSet.invert_invert`, `ChangeSet.invert_compose`: inverting twice, and inverting a
  composition;
* **`ChangeSet.invert_undoes`**: what inversion is for.
-/

namespace Termesh

open EditScript

namespace ChangeSet

/-- An inverse is known by its script. -/
theorem invert_eq {cs d : ChangeSet} {t : Text} (h : t.length = cs.lenBefore)
    (hd : nf (inv cs.toks t) = d.toks) : cs.invert t = some d := by
  obtain ⟨d', hd', -, -, htoks⟩ := cs.invert_some t h
  rw [hd', ext_toks (htoks.trans hd)]

/-- **Inverting the inverse gives the change back**, on the nose. -/
theorem invert_invert {cs c : ChangeSet} {t : Text} (h : t.length = cs.lenBefore)
    (hc : cs.invert t = some c) : c.invert (cs.apply t) = some cs := by
  obtain ⟨c', hc', hbefore, -, htoks⟩ := cs.invert_some t h
  obtain rfl : c' = c := Option.some.inj (hc'.symm.trans hc)
  have hpre : pre cs.toks = t.length := by rw [pre_toks, h]
  have hpost : pre (inv cs.toks t) = (cs.apply t).length := by
    rw [pre_inv _ _ hpre, post_toks, cs.length_apply t h]
  refine invert_eq (by rw [cs.length_apply t h, hbefore]) ?_
  calc nf (inv c'.toks (cs.apply t))
      = nf (inv (nf (inv cs.toks t)) (cs.apply t)) := by rw [htoks]
    _ = nf (inv (inv cs.toks t) (cs.apply t)) := nf_inv_nf _ _ hpost
    _ = nf cs.toks := by rw [cs.apply_eq t h, inv_inv _ _ hpre]
    _ = cs.toks := cs.nf_toks

/-- **A composition is inverted by inverting its second change first**, on the nose. -/
theorem invert_compose {a c d a' c' : ChangeSet} {t : Text} (h : a.lenAfter = c.lenBefore)
    (ht : t.length = a.lenBefore) (hd : a.compose c = some d) (ha : a.invert t = some a')
    (hc : c.invert (a.apply t) = some c') :
    ∃ e, d.invert t = some e ∧ c'.compose a' = some e := by
  obtain ⟨d', hd', hdbefore, -, hdtoks⟩ := a.compose_some c h
  obtain rfl : d' = d := Option.some.inj (hd'.symm.trans hd)
  have hlen : (a.apply t).length = c.lenBefore := (a.length_apply t ht).trans h
  obtain ⟨a₁, ha₁, habefore, -, hatoks⟩ := a.invert_some t ht
  obtain rfl : a₁ = a' := Option.some.inj (ha₁.symm.trans ha)
  obtain ⟨c₁, hc₁, -, hcafter, hctoks⟩ := c.invert_some (a.apply t) hlen
  obtain rfl : c₁ = c' := Option.some.inj (hc₁.symm.trans hc)
  have htd : t.length = d'.lenBefore := ht.trans hdbefore.symm
  obtain ⟨e, he, -, -, hetoks⟩ := d'.invert_some t htd
  refine ⟨e, he, compose_eq (by rw [hcafter, habefore, h]) ?_⟩
  have hpre : pre a.toks = t.length := by rw [pre_toks, ht]
  have hpost : post a.toks = pre c.toks := by rw [post_toks, pre_toks, h]
  have hmid : pre c.toks = (app a.toks t).length := by rw [length_app _ _ hpre, hpost]
  have hcomp : pre (comp a.toks c.toks) = t.length := by
    rw [(Meet.of_eq _ _ hpost).pre_comp, hpre]
  calc nf (comp c₁.toks a₁.toks)
      = nf (comp (nf (inv c.toks (app a.toks t))) (nf (inv a.toks t))) := by
        rw [hctoks, hatoks, a.apply_eq t ht]
    _ = nf (comp (inv c.toks (app a.toks t)) (inv a.toks t)) :=
        nf_comp (by rw [post_inv _ _ hmid, pre_inv _ _ hpre, hpost])
    _ = nf (inv (comp a.toks c.toks) t) := (nf_inv_comp hpost t hpre).symm
    _ = nf (inv (nf (comp a.toks c.toks)) t) := (nf_inv_nf _ _ hcomp).symm
    _ = e.toks := by rw [← hdtoks, hetoks]

/-- **Inversion undoes a change.** On the document it was made from, a change has an inverse in
canonical form, with the lengths swapped, which restores the document and whose own inverse is the
change again. The inverse of a composition does what the inverses do, the second one first. -/
theorem invert_undoes (cs : ChangeSet) (t : Text) (h : t.length = cs.lenBefore) :
    ∃ c, cs.invert t = some c ∧ Canonical c.ops ∧ c.lenBefore = cs.lenAfter ∧
      c.lenAfter = cs.lenBefore ∧ c.apply (cs.apply t) = t ∧ c.invert (cs.apply t) = some cs ∧
      ∀ b : ChangeSet, cs.lenAfter = b.lenBefore → ∃ cb e b' both,
        cs.compose b = some cb ∧ cb.invert t = some e ∧ b.invert (cs.apply t) = some b' ∧
          b'.compose c = some both ∧
          ∀ u : Text, u.length = b.lenAfter → e.apply u = both.apply u := by
  obtain ⟨c, hc, hbefore, hafter, -⟩ := cs.invert_some t h
  refine ⟨c, hc, c.canonical, hbefore, hafter, cs.invert_apply c t h hc, invert_invert h hc,
    fun b hb => ?_⟩
  obtain ⟨cb, hcb, -⟩ := cs.compose_some b hb
  have hlen : (cs.apply t).length = b.lenBefore := (cs.length_apply t h).trans hb
  obtain ⟨b', hb', -⟩ := b.invert_some (cs.apply t) hlen
  obtain ⟨e, he, hboth⟩ := invert_compose hb h hcb hc hb'
  exact ⟨cb, e, b', e, hcb, he, hb', hboth, fun u _ => rfl⟩

/-- "ab" becomes "xb". -/
theorem invert_undoes_replaced :
    ∃ c, ((replace 2 0 1 ['x']).get (by decide)).invert ['a', 'b'] = some c ∧ Canonical c.ops ∧
      c.lenBefore = 2 ∧ c.lenAfter = 2 ∧
      c.apply (((replace 2 0 1 ['x']).get (by decide)).apply ['a', 'b']) = ['a', 'b'] ∧
      c.invert (((replace 2 0 1 ['x']).get (by decide)).apply ['a', 'b']) =
        some ((replace 2 0 1 ['x']).get (by decide)) ∧
      ∀ b : ChangeSet, 2 = b.lenBefore → ∃ cb e b' both,
        ((replace 2 0 1 ['x']).get (by decide)).compose b = some cb ∧
          cb.invert ['a', 'b'] = some e ∧
          b.invert (((replace 2 0 1 ['x']).get (by decide)).apply ['a', 'b']) = some b' ∧
          b'.compose c = some both ∧
          ∀ u : Text, u.length = b.lenAfter → e.apply u = both.apply u :=
  invert_undoes ((replace 2 0 1 ['x']).get (by decide)) ['a', 'b'] (by decide)

end ChangeSet

end Termesh

import Mathlib.Data.BitVec
import Mathlib.Tactic
import OsLabs.Bytes
import OsLabs.DirModel
import OsLabs.Dirents

/-!
# Directories as maps

As long as no two live entries of a directory have the same name (`Distinct`), the live entries
are a finite map from names to inode numbers. Adding an entry inserts into this map, deleting one
removes from it, and both leave the entries of other names alone.
-/

namespace OsLabs
namespace DirMap

open Bytes FsModel DirModel Dirents

/-- No two live entries have the same name. -/
def Distinct (es : List Entry) : Prop :=
  es.Pairwise fun a b => a.live = true → b.live = true → a.name ≠ b.name

section Maps

variable {es : List Entry} {e x y : Entry} {n name : CString}

theorem isNamed_iff : Entry.isNamed n e = true ↔ e.live = true ∧ e.name = n := by
  rw [Entry.isNamed,Bool.and_eq_true,decide_eq_true_eq]

theorem lookup_eq_none_iff : lookup n es = none ↔ ∀ e ∈ es, e.live = true → e.name ≠ n := by
  rw [lookup,List.find?_eq_none]
  constructor
  · intro h e he hl hn
    exact h e he (isNamed_iff.mpr ⟨hl,hn⟩)
  · intro h e he hc
    obtain ⟨hl,hn⟩ := isNamed_iff.mp hc
    exact h e he hl hn

theorem lookup_some (h : lookup n es = some e) : e ∈ es ∧ e.live = true ∧ e.name = n :=
  ⟨List.mem_of_find?_eq_some h,isNamed_iff.mp (List.find?_some h)⟩

theorem Distinct.eq_of_name (h : Distinct es) (hx : x ∈ es) (hy : y ∈ es) (hlx : x.live = true)
    (hly : y.live = true) (hn : x.name = y.name) : x = y := by
  by_contra hne
  have hs : Std.Symm fun a b : Entry => a.live = true → b.live = true → a.name ≠ b.name :=
    ⟨fun a b hab hb ha => (hab ha hb).symm⟩
  exact List.Pairwise.forall h hx hy hne hlx hly hn

/-- Looking up a name gives the live entry that has it. -/
theorem lookup_eq_some_iff (h : Distinct es) :
    lookup n es = some e ↔ e ∈ es ∧ e.live = true ∧ e.name = n := by
  refine ⟨lookup_some,?_⟩
  rintro ⟨he,hl,hn⟩
  cases hf : lookup n es with
  | none => exact absurd hn (lookup_eq_none_iff.mp hf e he hl)
  | some f =>
    obtain ⟨hm,hfl,hfn⟩ := lookup_some hf
    rw [h.eq_of_name hm he hfl hl (hfn.trans hn.symm)]

/-! ## Adding -/

/-- A new entry takes the place of a deleted one of its length or is appended. -/
theorem addEntry_cases (e : Entry) (es : List Entry) :
    (∃ pre x post, es = pre ++ x::post ∧ x.live = false ∧ x.len = e.len ∧
      addEntry e es = pre ++ e::post) ∨ addEntry e es = es ++ [e] := by
  induction es with
  | nil => exact Or.inr rfl
  | cons y ys ih =>
    rw [addEntry]
    by_cases hy : y.live = false ∧ y.len = e.len
    · rw [if_pos hy]
      exact Or.inl ⟨[],y,ys,rfl,hy.1,hy.2,rfl⟩
    · rw [if_neg hy]
      rcases ih with ⟨pre,x,post,rfl,hx,hlen,hadd⟩ | hadd
      · exact Or.inl ⟨y::pre,x,post,rfl,hx,hlen,by rw [hadd,List.cons_append]⟩
      · exact Or.inr (by rw [hadd,List.cons_append])

theorem mem_addEntry_live (he : e.live = true) :
    (x ∈ addEntry e es ∧ x.live = true) ↔ x = e ∨ (x ∈ es ∧ x.live = true) := by
  rcases addEntry_cases e es with ⟨pre,y,post,rfl,hy,-,hadd⟩ | hadd
  · have hne : x.live = true → x ≠ y := by
      rintro hx rfl
      rw [hy] at hx
      cases hx
    simp only [hadd,List.mem_append,List.mem_cons]
    grind
  · simp only [hadd,List.mem_append,List.mem_singleton]
    grind

theorem Distinct.addEntry (h : Distinct es) (hnew : lookup e.name es = none) :
    Distinct (addEntry e es) := by
  have hne := lookup_eq_none_iff.mp hnew
  rcases addEntry_cases e es with ⟨pre,y,post,rfl,-,-,hadd⟩ | hadd
  · rw [hadd]
    obtain ⟨h1,h2,h3⟩ := List.pairwise_append.mp h
    obtain ⟨-,h5⟩ := List.pairwise_cons.mp h2
    refine List.pairwise_append.mpr ⟨h1,List.pairwise_cons.mpr ⟨?_,h5⟩,?_⟩
    · intro z hz _ hzl
      exact (hne z (by simp [hz]) hzl).symm
    · intro a ha b hb hal hbl
      rcases List.mem_cons.mp hb with rfl | hb
      · exact hne a (by simp [ha]) hal
      · exact h3 a ha b (by simp [hb]) hal hbl
  · rw [hadd]
    refine List.pairwise_append.mpr ⟨h,List.pairwise_singleton ..,?_⟩
    intro a ha b hb hal _
    rw [List.mem_singleton.mp hb]
    exact hne a ha hal

theorem mem_addEntry_self (he : e.live = true) (es : List Entry) : e ∈ addEntry e es :=
  ((mem_addEntry_live he).mpr (Or.inl rfl)).1

theorem lookup_addEntry (h : Distinct es) (he : e.live = true) (hnew : lookup e.name es = none)
    (n : CString) : lookup n (addEntry e es) = if n = e.name then some e else lookup n es := by
  have hd := h.addEntry hnew
  by_cases hn : n = e.name
  · rw [if_pos hn,lookup_eq_some_iff hd]
    exact ⟨mem_addEntry_self he es,he,hn.symm⟩
  · rw [if_neg hn]
    refine Option.ext fun x => ?_
    rw [lookup_eq_some_iff hd,lookup_eq_some_iff h,← and_assoc,mem_addEntry_live he]
    constructor
    · rintro ⟨rfl | hx,hxn⟩
      · exact absurd hxn.symm hn
      · exact ⟨hx.1,hx.2,hxn⟩
    · rintro ⟨hx,hl,hxn⟩
      exact ⟨Or.inr ⟨hx,hl⟩,hxn⟩

/-! ## Deleting -/

/-- The entry with the name stays, with an invalid inode number. -/
theorem killEntry_cases (name : CString) (es : List Entry) :
    (∃ pre x post, es = pre ++ x::post ∧ Entry.isNamed name x = true ∧
      killEntry name es = pre ++ { x with nr := invalidInodeNr }::post) ∨
      (killEntry name es = es ∧ ∀ x ∈ es, x.live = true → x.name ≠ name) := by
  induction es with
  | nil => exact Or.inr ⟨rfl,by simp⟩
  | cons y ys ih =>
    rw [killEntry]
    by_cases hy : Entry.isNamed name y = true
    · rw [if_pos hy]
      exact Or.inl ⟨[],y,ys,rfl,hy,rfl⟩
    · rw [if_neg hy]
      rcases ih with ⟨pre,x,post,rfl,hx,hkill⟩ | ⟨hkill,hno⟩
      · exact Or.inl ⟨y::pre,x,post,rfl,hx,by rw [hkill,List.cons_append]⟩
      · refine Or.inr ⟨by rw [hkill],?_⟩
        intro x hx hl hn
        rcases List.mem_cons.mp hx with rfl | hx
        · exact hy (isNamed_iff.mpr ⟨hl,hn⟩)
        · exact hno x hx hl hn

theorem invalid_not_live (x : Entry) : ({ x with nr := invalidInodeNr } : Entry).live = false := by
  have h : ¬(0 : ℤ) ≤ invalidInodeNr.toInt := by decide
  exact decide_eq_false h

theorem mem_killEntry_live (h : Distinct es) :
    (x ∈ killEntry name es ∧ x.live = true) ↔ (x ∈ es ∧ x.live = true) ∧ x.name ≠ name := by
  rcases killEntry_cases name es with ⟨pre,y,post,rfl,hy,hkill⟩ | ⟨hkill,hno⟩
  · obtain ⟨hyl,hyn⟩ := isNamed_iff.mp hy
    have hself : x.live = true → x ≠ { y with nr := invalidInodeNr } := by
      rintro hx rfl
      rw [invalid_not_live] at hx
      cases hx
    obtain ⟨-,h2,h3⟩ := List.pairwise_append.mp h
    have h4 := (List.pairwise_cons.mp h2).1
    rw [hkill]
    simp only [List.mem_append,List.mem_cons]
    constructor
    · rintro ⟨hx | hx | hx,hl⟩
      · refine ⟨⟨Or.inl hx,hl⟩,?_⟩
        rw [← hyn]
        exact h3 x hx y (by simp) hl hyl
      · exact absurd hx (hself hl)
      · refine ⟨⟨Or.inr (Or.inr hx),hl⟩,?_⟩
        rw [← hyn]
        exact (h4 x hx hyl hl).symm
    · rintro ⟨⟨hx | rfl | hx,hl⟩,hne⟩
      · exact ⟨Or.inl hx,hl⟩
      · exact absurd hyn hne
      · exact ⟨Or.inr (Or.inr hx),hl⟩
  · rw [hkill]
    exact ⟨fun hx => ⟨hx,hno x hx.1 hx.2⟩,fun hx => hx.1⟩

theorem Distinct.killEntry (h : Distinct es) (name : CString) : Distinct (killEntry name es) := by
  rcases killEntry_cases name es with ⟨pre,y,post,rfl,-,hkill⟩ | ⟨hkill,-⟩
  · rw [hkill]
    obtain ⟨h1,h2,h3⟩ := List.pairwise_append.mp h
    obtain ⟨-,h5⟩ := List.pairwise_cons.mp h2
    refine List.pairwise_append.mpr ⟨h1,List.pairwise_cons.mpr ⟨?_,h5⟩,?_⟩
    · intro z _ hl
      rw [invalid_not_live] at hl
      cases hl
    · intro a ha b hb hal hbl
      rcases List.mem_cons.mp hb with rfl | hb
      · rw [invalid_not_live] at hbl
        cases hbl
      · exact h3 a ha b (by simp [hb]) hal hbl
  · rwa [hkill]

theorem lookup_killEntry (h : Distinct es) (name n : CString) :
    lookup n (killEntry name es) = if n = name then none else lookup n es := by
  have hd := h.killEntry name
  by_cases hn : n = name
  · rw [if_pos hn,lookup_eq_none_iff]
    intro x hx hl
    rw [hn]
    exact ((mem_killEntry_live h).mp ⟨hx,hl⟩).2
  · rw [if_neg hn]
    refine Option.ext fun x => ?_
    rw [lookup_eq_some_iff hd,lookup_eq_some_iff h,← and_assoc,mem_killEntry_live h]
    constructor
    · rintro ⟨⟨hx,-⟩,hxn⟩
      exact ⟨hx.1,hx.2,hxn⟩
    · rintro ⟨hx,hl,hxn⟩
      exact ⟨⟨⟨hx,hl⟩,by rw [hxn]; exact hn⟩,hxn⟩

end Maps

end DirMap
end OsLabs

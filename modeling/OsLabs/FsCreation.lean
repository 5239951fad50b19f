import Mathlib.Data.BitVec
import Mathlib.Tactic
import OsLabs.Bytes
import OsLabs.Wlp
import OsLabs.FsModel
import OsLabs.DirModel
import OsLabs.FsVolume
import OsLabs.FsAccounts
import OsLabs.FsRemoval
import OsLabs.Dirents
import OsLabs.DirMap
import OsLabs.DirOps

/-!
# Creating files and directories

A creation goes through up to five changes: the inode, the two entries of a new directory, and the
entry in the parent. When one of them fails the inode is removed again, and then nothing can be
told apart from the state before: `Same`. Otherwise the new name and the new inode are there and
everything is written to the device: `Made`.
-/

namespace OsLabs
namespace FsCreation

open Bytes FsModel DirModel FsVolume FsAccounts FsRemoval Dirents DirMap DirOps

/-- All inodes, references, contents, free maps and counters are the same. -/
structure Same (v w : Volume) : Prop where
  inode : w.inode = v.inode
  ref : ref w = ref v
  logical : logical w = logical v
  disk : w.disk = v.disk
  inodeUsed : w.inodeUsed = v.inodeUsed
  blockUsed : w.blockUsed = v.blockUsed
  usedInodes : w.usedInodes = v.usedInodes
  usedBlocks : w.usedBlocks = v.usedBlocks
  maxBlocks : w.maxBlocks = v.maxBlocks

theorem Same.refl (v : Volume) : Same v v := ⟨rfl,rfl,rfl,rfl,rfl,rfl,rfl,rfl,rfl⟩

/-- The inode `i` is new, with the name in the directory `d` whose entries were `es`. -/
structure Made (d : ℕ) (es : List Entry) (name : CString) (type : InodeType) (i : ℕ)
    (v w : Volume) : Prop where
  lt : i < nrInodes
  unused : v.inodeUsed i = false
  inodeUsed : w.inodeUsed = Function.update v.inodeUsed i true
  usedInodes : w.usedInodes = v.usedInodes + 1
  maxBlocks : w.maxBlocks = v.maxBlocks
  inode : ∀ j, j ≠ d → j ≠ i → w.inode j = v.inode j
  logical : ∀ j, j ≠ d → j ≠ i → logical w j = logical v j
  isDir : IsDir w d (addEntry ⟨BitVec.ofNat 32 i,name⟩ es)
  file : type ≠ .dir → w.inode i = { Dinode.zero with iType := type.code }
  dir : type = .dir → IsDir w i [⟨BitVec.ofNat 32 i,dot⟩,⟨BitVec.ofNat 32 d,dotdot⟩]
  disk : w.disk = w.inode

section Undo

variable {s t : Testfs} {c c' : Memory} {v v₁ v₂ w : Volume} {i : ℕ} {type : InodeType}

theorem ref_zero (hz : v.inode i = Dinode.zero) (l : Slot) : ref v i l = 0 := by
  cases l <;> simp [ref,hz,Dinode.zero]

theorem logical_of_ref_zero (h : ∀ l, ref v i l = 0) : logical v i = fun _ _ => 0 := by
  funext n
  rw [logical,if_neg fun hc => hc.2 (h _)]

theorem isDir_congr {d : ℕ} {es : List Entry} (h : IsDir v d es) (hi : w.inode d = v.inode d)
    (hl : logical w d = logical v d) : IsDir w d es := by
  have hc : contents w d = contents v d := by
    funext o
    rw [contents,contents,hl]
  exact ⟨by rw [hi]; exact h.iType,by rw [hi,hc]; exact h.laid,by rw [hi]; exact h.size_le⟩

/-- The block free map is determined by the references. -/
theorem used_congr (h : Valid s c v) (h' : Valid t c' w) (hr : ref w = ref v) :
    w.blockUsed = v.blockUsed ∧ w.usedBlocks = v.usedBlocks := by
  have hused : w.blockUsed = v.blockUsed := by
    funext k
    by_cases hk : k < nrBlocks
    · have h1 := h.accounts.balanced.covered (dataStart + k)
      have h2 := h'.accounts.balanced.covered (dataStart + k)
      rw [hr] at h2
      have h3 := h2.trans h1.symm
      rw [Used,Used,Nat.add_sub_cancel_left] at h3
      rw [Bool.eq_iff_iff]
      constructor
      · intro hb
        exact (h3.mp ⟨by omega,by omega,hb⟩).2.2
      · intro hb
        exact (h3.mpr ⟨by omega,by omega,hb⟩).2.2
    · have hk' : ¬k < 2^20 := hk
      rw [← h.stands.blockUsed_eq,← h'.stands.blockUsed_eq,bits,bits,
        h.stands.coherent.blockBits,h'.stands.coherent.blockBits,decide_eq_false hk',
        Bool.false_and,Bool.false_and]
  refine ⟨hused,BitVec.eq_of_toNat_eq ?_⟩
  rw [h.accounts.used,h'.accounts.used,hused]

/-- An inode that was opened, changed and removed leaves no trace. -/
theorem same_of_removed (h : Valid s c v) (h' : Valid t c' w) (ho : Opened i type v v₁)
    (hf : Frame i v₁ v₂) (hr : Removed i v₂ w) (hz : v.inode i = Dinode.zero)
    (hd : v.disk i = Dinode.zero) : Same v w := by
  have href : ref w = ref v := by
    funext j
    by_cases hj : j = i
    · subst hj
      funext l
      rw [hr.ref_self l,ref_zero hz l]
    · rw [hr.ref j hj,hf.ref j hj,ho.ref]
  obtain ⟨hused,hcount⟩ := used_congr h h' href
  refine ⟨?_,href,?_,?_,?_,hused,?_,hcount,?_⟩
  · funext j
    by_cases hj : j = i
    · rw [hj,hr.self,hz]
    · rw [hr.inode j hj,hf.inode j hj,ho.inode j hj]
  · funext j
    by_cases hj : j = i
    · subst hj
      rw [logical_of_ref_zero hr.ref_self,logical_of_ref_zero (ref_zero hz)]
    · rw [hr.logical j hj,hf.logical j hj,ho.logical]
  · rw [hr.disk,hf.disk,ho.disk,← hd,Function.update_eq_self]
  · rw [hr.inodeUsed,hf.inodeUsed,ho.inodeUsed,Function.update_idem,← ho.unused,
      Function.update_eq_self]
  · rw [hr.usedInodes,hf.usedInodes,ho.usedInodes,BitVec.add_sub_cancel]
  · rw [hr.maxBlocks,hf.maxBlocks,ho.maxBlocks]

end Undo

section Creation

variable {s : Testfs} {c : Memory} {v : Volume} {d i : ℕ} {es : List Entry} {name : CString}

theorem isDir_nil (hz : v.inode i = { Dinode.zero with iType := InodeType.dir.code }) :
    IsDir v i [] := by
  refine ⟨by rw [hz],?_,?_⟩
  · rw [hz]
    rfl
  · rw [hz]
    exact Nat.zero_le _

theorem ref_of_laid {o stop : ℕ} {e : Entry} (h : Laid (contents v d) o (e::es) stop) :
    ref v d (slotOf (o/blockSize)) ≠ 0 := by
  intro hz
  obtain ⟨hbytes,hfit,-⟩ := h
  have hlen := Entry.len_lt hfit
  have hsz : e.size = 4 + (4 + e.len) := by
    rw [Entry.size]
    omega
  have hzero : ∀ k < 4, contents v d (o + k) = 0 := by
    intro k hk
    have hk0 : (o + k)/blockSize = o/blockSize := by
      simp only [blockSize] at hfit ⊢
      omega
    rw [contents,hk0,logical,if_neg fun hc => hc.2 hz]
  have hhead : (e.bytes.take 8).take 4 = [0,0,0,0] := by
    have h4 : copyOut (contents v d) o 4 = [0,0,0,0] := by
      simp only [copyOut,List.range_succ,List.range_zero,List.nil_append,
        List.map_cons,List.map_nil,List.cons_append]
      rw [hzero 0 (by decide),hzero 1 (by decide),hzero 2 (by decide),hzero 3 (by decide)]
    rw [List.take_take,← hbytes,hsz,copyOut_split]
    exact (List.take_left' (by simp)).trans h4
  have hval := leValue_take_bytes e
  rw [hhead] at hval
  have hnat := congrArg BitVec.toNat hval
  rw [BitVec.toNat_ofNat,BitVec.toNat_ofNat] at hnat
  have hpos : 0 < e.len := by
    rw [Entry.len]
    omega
  have hl0 : leValue [0,0,0,0] = 0 := by decide
  rw [hl0] at hnat
  omega

/-- Every block of a directory is there. -/
theorem ref_of_laid_lt {o stop n : ℕ} (h : Laid (contents v d) o es stop) (h1 : o ≤ n*blockSize)
    (h2 : n*blockSize < stop) : ref v d (slotOf n) ≠ 0 := by
  induction es generalizing o with
  | nil =>
    obtain rfl : o = stop := h
    omega
  | cons e es ih =>
    by_cases hn : n*blockSize < o + e.size
    · -- the entry does not go beyond its block
      have hfit := h.2.1
      have hdiv : o/blockSize = n := by
        simp only [blockSize] at *
        omega
      exact hdiv ▸ ref_of_laid h
    · exact ih h.2.2 (Nat.not_lt.mp hn)

theorem ref_of_entry {e : Entry} (hd : IsDir v d (e::es)) : ref v d (slotOf 0) ≠ 0 := by
  have hr := ref_of_laid hd.laid
  rwa [Nat.zero_div] at hr

/-- The block with the first entry of a new directory has room for the second one. -/
theorem room_for_dotdot (hd : IsDir v i (addEntry ⟨BitVec.ofNat 32 i,dot⟩ [])) (p : ℕ) :
    ¬(2^31 ≤ dotdot.1.length + 1 ∨ Cramped v i (place dotdot (addEntry ⟨BitVec.ofNat 32 i,dot⟩ []))
      ⟨BitVec.ofNat 32 p,dotdot⟩) := by
  have ho := place_le dotdot (addEntry ⟨BitVec.ofNat 32 i,dot⟩ [])
  generalize place dotdot (addEntry ⟨BitVec.ofNat 32 i,dot⟩ []) = o at ho ⊢
  rintro (hlong | hcramped)
  · exact absurd hlong (by decide)
  · have hsz : sizes (addEntry ⟨BitVec.ofNat 32 i,dot⟩ []) = 10 := by
      simp only [addEntry,sizes,List.map_cons,List.map_nil,List.sum_cons,List.sum_nil,
        Entry.size,Entry.len]
      decide
    rw [hsz] at ho
    have ho0 : o/blockSize = 0 := by
      simp only [blockSize]
      omega
    rcases hcramped with hbig | hfar | hfull
    · have hlen : (⟨BitVec.ofNat 32 p,dotdot⟩ : Entry).size = 11 := by
        simp only [Entry.size,Entry.len]
        decide
      rw [hlen] at hbig
      simp only [blockSize] at hbig
      omega
    · simp only [nrDirectBlocks,blockSize] at hfar
      omega
    · rw [ho0] at hfull
      exact ref_of_entry hd hfull.2

theorem lookup_dotdot_of_dot (nr : BitVec 32) : lookup dotdot (addEntry ⟨nr,dot⟩ []) = none := by
  rw [lookup_eq_none_iff]
  intro e he _
  rw [List.mem_singleton.mp he]
  exact (by decide : dot ≠ dotdot)

/-- The two entries of a new directory; they are not made only when there is no room. -/
theorem testfsCreateEmptyDir_spec (hm : i ∈ c.dirty) (h : Valid s c v) (hz : IsDir v i []) (p : ℕ) :
    Wlp (testfsCreateEmptyDir p i) s (fun r t =>
      (r < 0 ∧ Full v ∧ ∃ w, Valid t c w ∧ Frame i v w) ∨
      (r = 0 ∧ ∃ w, Valid t c w ∧
        Rewritten i [⟨BitVec.ofNat 32 i,dot⟩,⟨BitVec.ofNat 32 p,dotdot⟩] v w)) := by
  rw [testfsCreateEmptyDir,testfsCreateEmptyDirWith,Wlp.bind_iff]
  refine (assertDir_spec h.stands i).mono ?_
  rintro _ t ⟨rfl,-⟩
  rw [Wlp.bind_iff]
  refine (testfsAddDirent_spec hm h hz rfl i).mono ?_
  rintro r t1 (⟨hr,h1,hwhy⟩ | ⟨w,hr,hw,hrw⟩)
  · rw [if_pos hr,Wlp.pure_iff]
    refine Or.inl ⟨hr,?_,v,h1,Frame.refl i v⟩
    rcases hwhy with hlong | hcramped
    · exact absurd hlong (by decide)
    · rw [show place dot [] = 0 from rfl] at hcramped
      rcases hcramped with hbig | hfar | hfull
      · exact absurd hbig (by simp only [Entry.size,Entry.len]; decide)
      · exact absurd hfar (by decide)
      · exact hfull.1
  · rw [if_neg (by omega),Wlp.bind_iff]
    refine (testfsAddDirent_spec hm hw hrw.isDir (lookup_dotdot_of_dot _) p).mono ?_
    rintro r t2 (⟨hr,h2,hwhy⟩ | ⟨w',hr,hw',hrw'⟩)
    · exact absurd hwhy (room_for_dotdot hrw.isDir p)
    · rw [if_neg (by omega),Wlp.pure_iff]
      refine Or.inr ⟨rfl,w',hw',hrw.frame.trans hrw'.frame,?_⟩
      have happ := hrw'.isDir
      rwa [addEntry_append] at happ
      intro y hy
      rw [List.mem_singleton.mp hy]
      exact fun hc => absurd hc.2 (by simp only [Entry.len]; decide)

theorem createContents_spec (hm : i ∈ c.dirty) (h : Valid s c v) (type : InodeType)
    (hz : type = .dir → IsDir v i []) (p : ℕ) :
    Wlp (createContents type p i) s (fun r t =>
      (r < 0 ∧ type = .dir ∧ Full v ∧ ∃ w, Valid t c w ∧ Frame i v w) ∨
      (r = 0 ∧ ∃ w, Valid t c w ∧ Frame i v w ∧ (type ≠ .dir → w = v) ∧
        (type = .dir → IsDir w i [⟨BitVec.ofNat 32 i,dot⟩,⟨BitVec.ofNat 32 p,dotdot⟩]))) := by
  rw [createContents,createContentsWith,Wlp.ite_iff]
  constructor
  · intro hdir
    refine (testfsCreateEmptyDir_spec hm h (hz hdir) p).mono ?_
    rintro r t (hfail | ⟨hr,w,hw,hrw⟩)
    · exact Or.inl ⟨hfail.1,hdir,hfail.2⟩
    · exact Or.inr ⟨hr,w,hw,hrw.frame,fun hf => absurd hdir hf,fun _ => hrw.isDir⟩
  · intro hfile
    exact Wlp.pure_iff.mpr
      (Or.inr ⟨rfl,v,h,Frame.refl i v,fun _ => rfl,fun hdir => absurd hdir hfile⟩)

/-- The memory after an inode has been created and removed again. -/
theorem undo_memory (hc : c.Counted) {t : Testfs} {w : Volume}
    (h : Valid t (((c.touch i).hold i).release i) w) : Valid t c w := by
  rw [release_hold (c := c.touch i) hc i] at h
  refine h.mono rfl le_rfl rfl ?_
  rintro j ⟨hj,hne⟩
  exact (Set.mem_insert_iff.mp hj).resolve_left hne

/-- `testfs_create_file_or_dir` fails and nothing has changed, or the name is new. -/
theorem testfsCreateFileOrDir_spec (hm : d ∈ c.dirty) (hc : c.Counted) (h : Valid s c v)
    (hd : IsDir v d es) (hused : v.inodeUsed d = true)
    (hfresh : ∀ i, v.inodeUsed i = false → v.inode i = Dinode.zero) (hsync : v.disk = v.inode)
    (type : InodeType) (name : CString) :
    Wlp (testfsCreateFileOrDir d type name) s (fun r t =>
      (r < 0 ∧ ∃ w, Valid t c w ∧ Same v w) ∨
      (r = 0 ∧ lookup name es = none ∧ ∃ i w, Valid t (c.clean d) w ∧
        Made d es name type i v w)) := by
  rw [testfsCreateFileOrDir,testfsCreateFileOrDirWith,Wlp.bind_iff]
  refine (testfsDirNameToInodeNr_spec h.stands h.accounts hd name).mono ?_
  rintro r t ⟨rfl,hr⟩
  cases hlook : lookup name es with
  | some e =>
    rw [hlook] at hr
    have hlive := toInt_of_live (lookup_some hlook).2.1
    rw [if_pos (by simp only at hr; omega),Wlp.pure_iff]
    exact Or.inl ⟨by decide,v,h,Same.refl v⟩
  | none =>
    rw [hlook] at hr
    obtain rfl : r = Errno.noent.ret := hr
    rw [if_neg (by decide),Wlp.bind_iff]
    refine (testfsCreateInode_valid h type).mono ?_
    intro r1 t1 h1
    cases r1 with
    | none => exact Wlp.pure_iff.mpr (Or.inl ⟨by decide,v,h1.1,Same.refl v⟩)
    | some i =>
      obtain ⟨v1,hv1,ho⟩ := h1
      have hz := hfresh i ho.unused
      have hzd : v.disk i = Dinode.zero := by rw [hsync,hz]
      have hdi : d ≠ i := by
        rintro rfl
        rw [ho.unused] at hused
        cases hused
      have hmi : i ∈ ((c.touch i).hold i).dirty := Set.mem_insert i _
      have hself : v1.inode i = { Dinode.zero with iType := type.code } := by rw [ho.self,hz]
      simp only [Wlp.bind_iff]
      refine (createContents_spec hmi hv1 type (fun hdir => ?_) d).mono ?_
      · rw [hdir] at hself
        exact isDir_nil hself
      rintro r2 t2 (⟨hr2,-,-,w,hw,hf⟩ | ⟨rfl,w,hw,hf,hfile,hdir⟩)
      · -- the contents could not be made
        rw [if_pos hr2,Wlp.bind_iff]
        refine (testfsRemoveInode_valid hmi hw).mono ?_
        rintro _ t3 ⟨w3,h3,hrem⟩
        exact Wlp.pure_iff.mpr
          (Or.inl ⟨hr2,w3,undo_memory hc h3,same_of_removed h h3 ho hf hrem hz hzd⟩)
      · have hdw : IsDir w d es := by
          refine isDir_congr hd ?_ ?_
          · rw [hf.inode d hdi,ho.inode d hdi]
          · rw [hf.logical d hdi,ho.logical]
        rw [if_neg (by omega),Wlp.bind_iff]
        refine (testfsAddDirent_spec (Set.mem_insert_of_mem i hm) hw hdw hlook i).mono ?_
        rintro r3 t3 (⟨hr3,h3,-⟩ | ⟨w3,hr3,h3,hrw⟩)
        · -- the parent has no room for the entry
          rw [if_pos hr3,Wlp.bind_iff]
          refine (testfsRemoveInode_valid hmi h3).mono ?_
          rintro _ t4 ⟨w4,h4,hrem⟩
          exact Wlp.pure_iff.mpr
            (Or.inl ⟨hr3,w4,undo_memory hc h4,same_of_removed h h4 ho hf hrem hz hzd⟩)
        · rw [if_neg (by omega)]
          simp only [Wlp.bind_iff]
          refine (testfsSyncInode_valid h3 d).mono ?_
          intro _ t4 h4
          refine (testfsSyncInode_valid h4 i).mono ?_
          intro _ t5 h5
          refine (testfsPutInode_valid h5 i).mono ?_
          intro _ t6 h6
          have hframe := hrw.frame
          have hi3 : w3.inode i = w.inode i := hframe.inode i hdi.symm
          have hl3 : logical w3 i = logical w i := hframe.logical i hdi.symm
          refine Wlp.pure_iff.mpr (Or.inr ⟨rfl,trivial,i,_,h6.mono rfl le_rfl ?_ ?_,
            ho.lt,ho.unused,?_,?_,?_,?_,?_,isDir_congr hrw.isDir rfl rfl,?_,?_,?_⟩)
          · have hcount := congrArg Memory.count (release_hold (c := c.touch i) hc i)
            exact hcount.symm
          · rintro j ⟨⟨⟨hj,hjd⟩,hji⟩,-⟩
            exact ⟨(Set.mem_insert_iff.mp hj).resolve_left hji,hjd⟩
          · show w3.inodeUsed = _
            rw [hframe.inodeUsed,hf.inodeUsed,ho.inodeUsed]
          · show w3.usedInodes = _
            rw [hframe.usedInodes,hf.usedInodes,ho.usedInodes]
          · show w3.maxBlocks = _
            rw [hframe.maxBlocks,hf.maxBlocks,ho.maxBlocks]
          · intro j hjd hji
            show w3.inode j = _
            rw [hframe.inode j hjd,hf.inode j hji,ho.inode j hji]
          · intro j hjd hji
            show logical w3 j = _
            rw [hframe.logical j hjd,hf.logical j hji,ho.logical]
          · intro ht
            show w3.inode i = _
            rw [hi3,hfile ht,hself]
          · intro ht
            exact isDir_congr (hdir ht) hi3 hl3
          · show Function.update (Function.update w3.disk d (w3.inode d)) i (w3.inode i) = w3.inode
            funext j
            by_cases hji : j = i
            · rw [hji,Function.update_self]
            · rw [Function.update_of_ne hji]
              by_cases hjd : j = d
              · rw [hjd,Function.update_self]
              · rw [Function.update_of_ne hjd,hframe.disk,hf.disk,ho.disk,hsync,
                  hframe.inode j hjd,hf.inode j hji,ho.inode j hji]

end Creation

end FsCreation
end OsLabs

import NetworkFileSystem.Posix.Outstanding

/-!
# What lies below an entry of the root

`FS.Below` are the inodes at and below an entry `top` of the root.  A lookup that sets out for them
can get out again in two ways only: it goes up from the entry itself, or it follows a symbolic link
whose absolute target begins otherwise.  `FS.stays` says of a lookup that it does neither, and what
it finds is then below (`resolve_below`, `lresolve_below`, `slot_inward`).

This rests on the shape of the tree there: `..` undoes the step into a directory, and no directory
has two names (`FS.Rooted`).  The calls that change the tree keep that shape.
-/

namespace Posix

open Effects

/-- Whether a list of components begins with the name, up to dots. -/
def enters (top : Name) (l : List Name) : Bool := l.find? (· ≠ dot) = some top

namespace FS

/-- The inodes at and below the entry `top` of the root. -/
inductive Below (fs : FS) (top : Name) : Ino → Prop
  | entry {i : Ino} (h : fs.child fs.root top = .ok i) : Below fs top i
  | child {d i : Ino} {x : Name} (hd : Below fs top d) (hx : special x = false)
      (h : fs.child d x = .ok i) : Below fs top i

/-- Every entry of a directory leads to an inode. -/
def Whole (fs : FS) : Prop :=
  ∀ d r, fs.dir d = .ok r → ∀ e ∈ r.2, (fs.node e.2).isSome

/-- The shape of the tree at and below the entry `top` of the root. -/
structure Rooted (fs : FS) (top : Name) : Prop where
  whole : fs.Whole
  /-- The entry itself is no symbolic link. -/
  entry : ∀ i, fs.child fs.root top = .ok i → fs.linkTarget i = none
  /-- A directory knows the directory it is in. -/
  parent : ∀ d x i r, Below fs top d → special x = false → fs.child d x = .ok i →
    fs.dir i = .ok r → r.1 = d
  /-- A directory has one name there. -/
  single : ∀ d x y i r, Below fs top d → special x = false → special y = false →
    fs.child d x = .ok i → fs.child d y = .ok i → fs.dir i = .ok r → x = y

/-- Whether all directories have that shape. -/
def wellShaped (fs : FS) (top : Name) : Bool :=
  ((List.range fs.next).all fun d => match fs.dir d with
    | .ok r => r.2.all fun e => (fs.node e.2).isSome && match fs.dir e.2 with
      | .ok r' => r'.1 = d && r.2.all fun e' => e'.2 ≠ e.2 || e'.1 = e.1
      | .error _ => true
    | .error _ => true) &&
  match fs.child fs.root top with
    | .ok i => fs.linkTarget i = none
    | .error _ => true

/-- Whether `i` is the entry. -/
def isTop (fs : FS) (top : Name) (i : Ino) : Bool :=
  match fs.child fs.root top with
  | .ok k => k = i
  | .error _ => false

/-- Whether a walk along the components neither goes up from the entry nor follows an absolute link
that begins otherwise; a link in the last place counts when it is followed. -/
def staysWith (fs : FS) (top : Name) (follow : Bool) (jump : Ino → List Name → Bool) :
    Ino → List Name → Bool
  | _, [] => true
  | cur, x :: rest =>
    match fs.child cur x with
    | .error _ => true
    | .ok i => (x ≠ dotdot || !fs.isTop top cur) && match fs.linkTarget i with
      | some t => (!follow && rest = []) || ((t.head? ≠ some '/' || enters top (components t)) &&
          jump (fs.base cur t) (walkComps t ++ rest))
      | none => staysWith fs top follow jump i rest

/-- The same, following at most the given number of symbolic links. -/
def stays (fs : FS) (top : Name) (follow : Bool) : ℕ → Ino → List Name → Bool
  | 0 => fs.staysWith top follow fun _ _ => true
  | n + 1 => fs.staysWith top follow (stays fs top follow n)

/-- The path begins with the name, and its lookup stays at and below the entry. -/
def staysIn (fs : FS) (top : Name) (follow : Bool) (p : CStr) : Bool :=
  enters top (components p) && fs.stays top follow maxSymlinks fs.root (walkComps p)

/-- Whether `open` follows a link in the last place. -/
def followsLast (flags : UInt32) : Bool :=
  !hasBit flags O_NOFOLLOW &&
    (hasBit flags O_PATH || !(hasBit flags O_CREAT && hasBit flags O_EXCL))

/-- A walk that has come to `cur` is below the entry, or its next name leads there. -/
def Inward (fs : FS) (top : Name) (cur : Ino) (l : List Name) : Prop :=
  Below fs top cur ∨ (cur = fs.root ∧ enters top l = true)

variable {fs fs' : FS} {top x y : Name} {f : Bool} {d i j k cur : Ino} {n m : ℕ}
  {l r : List Name} {p t : CStr}

/-! ## Staying below, step by step -/

theorem isTop_iff : fs.isTop top i = true ↔ fs.child fs.root top = .ok i := by
  unfold isTop
  cases fs.child fs.root top <;> simp

/-- A list of names enters by the top entry, or after dots. -/
theorem enters_cons (h : special top = false) :
    enters top (x :: l) = true ↔ x = top ∨ (x = dot ∧ enters top l = true) := by
  have htop : top ≠ dot := by
    rintro rfl
    cases h
  unfold enters
  by_cases hx : x = dot
  · simp [hx, Ne.symm htop]
  · simp [hx]

/-- A list that enters does so however it goes on. -/
theorem enters_append (h : enters top l = true) : enters top (l ++ r) = true := by
  unfold enters at h ⊢
  simp only [decide_eq_true_eq] at h ⊢
  rw [List.find?_append, h]
  rfl

@[simp] theorem stays_nil : fs.stays top f n cur [] = true := by
  cases n <;> rfl

/-- One step of a lookup that stays below. -/
theorem stays_cons : fs.stays top f n cur (x :: l) = true ↔ ∀ i, fs.child cur x = .ok i →
    (x = dotdot → fs.child fs.root top ≠ .ok cur) ∧
    (fs.linkTarget i = none → fs.stays top f n i l = true) ∧
    ∀ t, fs.linkTarget i = some t → f = true ∨ l ≠ [] →
      (t.head? = some '/' → enters top (components t) = true) ∧
      ∀ m, n = m + 1 → fs.stays top f m (fs.base cur t) (walkComps t ++ l) = true := by
  have hup : (!fs.isTop top cur) = true ↔ fs.child fs.root top ≠ .ok cur := by
    rw [Bool.not_eq_true', ← Bool.not_eq_true, isTop_iff]
  have hcase : ∀ jump : Ino → List Name → Bool,
      fs.staysWith top f jump cur (x :: l) = true ↔ ∀ i, fs.child cur x = .ok i →
        (x = dotdot → fs.child fs.root top ≠ .ok cur) ∧
        (fs.linkTarget i = none → fs.staysWith top f jump i l = true) ∧
        ∀ t, fs.linkTarget i = some t → f = true ∨ l ≠ [] →
          (t.head? = some '/' → enters top (components t) = true) ∧
          jump (fs.base cur t) (walkComps t ++ l) = true := by
    intro jump
    rw [staysWith]
    cases fs.child cur x with
    | error e => simp
    | ok i =>
        simp only [Except.ok.injEq, forall_eq', Bool.and_eq_true, Bool.or_eq_true, hup]
        refine and_congr (by simp [imp_iff_not_or]) ?_
        cases fs.linkTarget i with
        | none => simp
        | some t =>
            simp only [reduceCtorEq, false_implies, true_and, Option.some.injEq, forall_eq']
            by_cases hl : l = [] <;> cases f <;> simp [hl, imp_iff_not_or]
  cases n with
  | zero =>
      rw [stays, hcase]
      simp
  | succ n =>
      rw [stays, hcase]
      simp

/-- The beginning of a lookup that stays below; its links are followed. -/
theorem stays_prefix (h : fs.stays top f n cur (l ++ x :: r) = true) :
    fs.stays top true n cur l = true := by
  induction n using Nat.strongRecOn generalizing cur l with
  | _ n ihn =>
    induction l generalizing cur with
    | nil => exact stays_nil
    | cons y l ihl =>
        refine stays_cons.mpr fun i hi => ?_
        obtain ⟨hup, hdown, hlink⟩ := stays_cons.mp h i hi
        refine ⟨hup, fun ht => ihl (hdown ht), fun t ht _ => ?_⟩
        obtain ⟨habs, hjump⟩ := hlink t ht (.inr (by simp))
        refine ⟨habs, fun m hm => ihn m (by omega) ?_⟩
        rw [List.append_assoc]
        exact hjump m hm

/-- The dot leads to the directory itself. -/
theorem child_dot (h : fs.child cur dot = .ok i) : i = cur ∧ fs.linkTarget i = none := by
  obtain ⟨_, _, hdir, -, hp, -⟩ := child_eq_ok.mp h
  obtain rfl : cur = i := by simpa [pick] using hp
  exact ⟨rfl, linkTarget_of_dir hdir⟩

/-- A slash at the end leads nowhere else. -/
theorem stays_dot (h : fs.stays top true n cur l = true) :
    fs.stays top true n cur (l ++ [dot]) = true := by
  induction n using Nat.strongRecOn generalizing cur l with
  | _ n ihn =>
    induction l generalizing cur with
    | nil =>
        refine stays_cons.mpr fun i hi => ⟨fun hx => absurd hx (by decide), fun _ => stays_nil, ?_⟩
        intro t ht
        rw [(child_dot hi).2] at ht
        cases ht
    | cons y l ihl =>
        refine stays_cons.mpr fun i hi => ?_
        obtain ⟨hup, hdown, hlink⟩ := stays_cons.mp h i hi
        refine ⟨hup, fun ht => ihl (hdown ht), fun t ht _ => ?_⟩
        obtain ⟨habs, hjump⟩ := hlink t ht (.inl rfl)
        refine ⟨habs, fun m hm => ?_⟩
        have hnext := ihn m (by omega) (hjump m hm)
        rwa [List.append_assoc] at hnext

/-- A slash at the end of an intermediate part of the way makes no difference. -/
theorem stays_skip_dot (h : fs.stays top f n cur (l ++ dot :: r) = true) :
    fs.stays top f n cur (l ++ r) = true := by
  induction n using Nat.strongRecOn generalizing cur l with
  | _ n ihn =>
    induction l generalizing cur with
    | nil =>
        cases r with
        | nil => exact stays_nil
        | cons y r =>
            refine stays_cons.mpr fun i hi => ?_
            obtain ⟨parent, es, hdir, -⟩ := child_eq_ok.mp hi
            obtain ⟨e, he, -⟩ := dir_eq_ok.mp hdir
            have hdot : fs.child cur dot = .ok cur :=
              child_eq_ok.mpr ⟨parent, es, hdir, by decide, by simp [pick], by simp [he]⟩
            have hcur := (stays_cons.mp h cur hdot).2.1 (child_dot hdot).2
            exact stays_cons.mp hcur i hi
    | cons y l ihl =>
        refine stays_cons.mpr fun i hi => ?_
        obtain ⟨hup, hdown, hlink⟩ := stays_cons.mp h i hi
        refine ⟨hup, fun ht => ihl (hdown ht), fun t ht _ => ?_⟩
        obtain ⟨habs, hjump⟩ := hlink t ht (.inr (by simp))
        refine ⟨habs, fun m hm => ?_⟩
        have hnext : fs.stays top f m (fs.base cur t) ((walkComps t ++ l) ++ dot :: r) = true := by
          rw [List.append_assoc]
          exact hjump m hm
        have hskip := ihn m (by omega) hnext
        rwa [List.append_assoc] at hskip

theorem stays_components (h : fs.stays top f n cur (walkComps t ++ l) = true) :
    fs.stays top f n cur (components t ++ l) = true := by
  unfold walkComps at h
  split at h
  · rw [List.append_assoc] at h
    exact stays_skip_dot h
  · rwa [List.append_nil] at h

/-- An ordinary name leads to one of the entries. -/
theorem mem_of_child (hx : special x = false) (h : fs.child d x = .ok i) :
    ∃ r, fs.dir d = .ok r ∧ (x, i) ∈ r.2 := by
  obtain ⟨parent, es, hdir, -, hl, -⟩ := (child_eq_ok_of_special hx).mp h
  obtain ⟨l₁, l₂, rfl, -⟩ := List.lookup_eq_some_iff.mp hl
  exact ⟨_, hdir, by simp⟩

/-- The shape can be computed. -/
theorem rooted_of_check (h : fs.wellShaped top = true) : fs.Rooted top := by
  obtain ⟨hdirs, hentry⟩ := Bool.and_eq_true _ _ ▸ h
  have hdir : ∀ d r, fs.dir d = .ok r → ∀ e ∈ r.2, (fs.node e.2).isSome ∧
      ∀ r', fs.dir e.2 = .ok r' → r'.1 = d ∧ ∀ e' ∈ r.2, e'.2 = e.2 → e'.1 = e.1 := by
    intro d r hr e he
    have hd : d < fs.next := by
      obtain ⟨n, hn, -⟩ := dir_eq_ok.mp hr
      by_contra hno
      rw [fs.fresh d (Nat.le_of_not_lt hno)] at hn
      cases hn
    have hone := List.all_eq_true.mp hdirs d (List.mem_range.mpr hd)
    simp only [hr] at hone
    obtain ⟨hsome, hsub⟩ := Bool.and_eq_true _ _ ▸ List.all_eq_true.mp hone e he
    refine ⟨hsome, fun r' hr' => ?_⟩
    simp only [hr', Bool.and_eq_true, decide_eq_true_eq, List.all_eq_true, Bool.or_eq_true] at hsub
    exact ⟨hsub.1, fun e' he' heq => (hsub.2 e' he').resolve_left fun hne => hne heq⟩
  refine ⟨fun d r hr e he => (hdir d r hr e he).1, ?_, ?_, ?_⟩
  · intro i hi
    rw [hi] at hentry
    exact of_decide_eq_true hentry
  · intro d x i r _ hx hc hr
    obtain ⟨es, hes, hmem⟩ := mem_of_child hx hc
    exact ((hdir d es hes _ hmem).2 r hr).1
  · intro d x y i r _ hx hy hcx hcy hr
    obtain ⟨es, hes, hmemx⟩ := mem_of_child hx hcx
    obtain ⟨es', hes', hmemy⟩ := mem_of_child hy hcy
    obtain rfl : es = es' := Except.ok.inj (hes.symm.trans hes')
    exact ((hdir d es hes _ hmemy).2 r hr).2 _ hmemx rfl

/-! ## What lookups find -/

theorem nil_notMem_components (p : CStr) : [] ∉ components p := by
  simp [components]

theorem nil_notMem_walkComps (p : CStr) : [] ∉ walkComps p := by
  unfold walkComps
  split <;> simp [nil_notMem_components, dot]

/-- From below, one step leads out only up from the entry. -/
theorem Rooted.below_child (hR : fs.Rooted top) (hcur : Below fs top cur) (hx : x ≠ [])
    (hup : x = dotdot → fs.child fs.root top ≠ .ok cur) (hc : fs.child cur x = .ok i) :
    Below fs top i := by
  by_cases hdot : x = dot
  · subst hdot
    rwa [(child_dot hc).1]
  by_cases hdd : x = dotdot
  · obtain ⟨parent, es, hdir, -, hp, -⟩ := child_eq_ok.mp hc
    cases hcur with
    | entry h => exact absurd h (hup hdd)
    | child hd hy h =>
        have hparent := hR.parent _ _ _ _ hd hy h hdir
        obtain rfl : parent = i := by simpa [pick, hdd, dotdot, dot] using hp
        rwa [← show parent = _ from hparent] at hd
  · exact .child hcur (by simp [special, hx, hdot, hdd]) hc

/-- A name that is missing is missing in a directory. -/
theorem dir_of_missing (h : fs.child cur x = .error ENOENT) : ∃ r, fs.dir cur = .ok r := by
  cases hd : fs.dir cur with
  | ok r => exact ⟨r, rfl⟩
  | error e =>
      have he : e = ENOTDIR := by
        unfold dir at hd
        split at hd
        · split at hd <;> cases hd
          rfl
        · cases hd
          rfl
      rw [child, hd, error_bind, he] at h
      cases h

/-- One step of the way to a name that may be created. -/
theorem final_cons (h : fs.final n cur (y :: l) = .ok (d, x)) :
    (l = [] ∧ d = cur ∧ x = y ∧ ∃ r, fs.dir cur = .ok r) ∨
    ∃ i, fs.child cur y = .ok i ∧ ((fs.linkTarget i = none ∧ fs.final n i l = .ok (d, x)) ∨
      ∃ t m, fs.linkTarget i = some t ∧ n = m + 1 ∧
        fs.final m (fs.base cur t) (components t ++ l) = .ok (d, x)) := by
  have hcase : ∀ jump : Ino → List Name → Except Errno (Ino × Name),
      fs.finalWith jump cur (y :: l) = .ok (d, x) →
        (l = [] ∧ d = cur ∧ x = y ∧ ∃ r, fs.dir cur = .ok r) ∨
        ∃ i, fs.child cur y = .ok i ∧
          ((fs.linkTarget i = none ∧ fs.finalWith jump i l = .ok (d, x)) ∨
            ∃ t, fs.linkTarget i = some t ∧
              jump (fs.base cur t) (components t ++ l) = .ok (d, x)) := by
    intro jump h
    rw [finalWith] at h
    split at h
    · next e he =>
      split at h
      · next hnil =>
        cases h
        exact .inl ⟨hnil.1, rfl, rfl, dir_of_missing (hnil.2 ▸ he)⟩
      · cases h
    · next i hi =>
      split at h
      · next t ht =>
        split at h
        · cases h
        · exact .inr ⟨i, hi, .inr ⟨t, ht, h⟩⟩
      · next ht =>
        split at h
        · next hnil =>
          cases h
          obtain ⟨_, _, hdir, -⟩ := child_eq_ok.mp hi
          exact .inl ⟨hnil, rfl, rfl, _, hdir⟩
        · exact .inr ⟨i, hi, .inl ⟨ht, h⟩⟩
  cases n with
  | zero =>
      rcases hcase _ h with hend | ⟨i, hi, hdown | ⟨t, ht, hjump⟩⟩
      · exact .inl hend
      · exact .inr ⟨i, hi, .inl hdown⟩
      · cases hjump
  | succ m =>
      rcases hcase _ h with hend | ⟨i, hi, hdown | ⟨t, ht, hjump⟩⟩
      · exact .inl hend
      · exact .inr ⟨i, hi, .inl hdown⟩
      · exact .inr ⟨i, hi, .inr ⟨t, m, ht, rfl, hjump⟩⟩

/-- A name that may be created is in a directory. -/
theorem final_dir (hx : x ≠ []) (h : fs.final n cur l = .ok (d, x)) :
    ∃ r, fs.dir d = .ok r := by
  induction n using Nat.strongRecOn generalizing cur l with
  | _ n ihn =>
    induction l generalizing cur with
    | nil =>
        have h' : (cur, []) = (d, x) := by cases n <;> exact Except.ok.inj h
        cases h'
        exact absurd rfl hx
    | cons y l ihl =>
        rcases final_cons h with ⟨-, rfl, -, hdir⟩ | ⟨i, -, ⟨-, hrest⟩ | ⟨t, m, -, rfl, hrest⟩⟩
        · exact hdir
        · exact ihl hrest
        · exact ihn m (Nat.lt_succ_self m) hrest

section

variable (htop : special top = false)

include htop

/-- **One name of a walk** that stays inside: the next one still leads inward. -/
theorem Inward.step (hR : fs.Rooted top) (hin : Inward fs top cur (x :: l)) (hx : x ≠ [])
    (hup : x = dotdot → fs.child fs.root top ≠ .ok cur) (hc : fs.child cur x = .ok i) :
    Inward fs top i l := by
  rcases hin with hcur | ⟨rfl, hl⟩
  · exact .inl (hR.below_child hcur hx hup hc)
  · rcases (enters_cons htop).mp hl with rfl | ⟨rfl, hl⟩
    · exact .inl (.entry hc)
    · exact .inr ⟨(child_dot hc).1, hl⟩

/-- The last name of a walk that stays inside leads below. -/
theorem Inward.last (hR : fs.Rooted top) (hin : Inward fs top cur [x]) (hx : x ≠ [])
    (hup : x = dotdot → fs.child fs.root top ≠ .ok cur) (hc : fs.child cur x = .ok i) :
    Below fs top i := by
  rcases hin.step htop hR hx hup hc with hi | ⟨-, hnil⟩
  · exact hi
  · cases hnil

/-- A name in the last place is the entry or in a directory below. -/
theorem Inward.name (hin : Inward fs top cur (x :: l)) (hx : special x = false) :
    Inward fs top cur [x] := by
  rcases hin with hcur | ⟨rfl, hl⟩
  · exact .inl hcur
  · rcases (enters_cons htop).mp hl with rfl | ⟨rfl, -⟩
    · exact .inr ⟨rfl, (enters_cons htop).mpr (.inl rfl)⟩
    · cases hx

/-- A link that is met on the way does not lead out either. -/
theorem Inward.jump (hR : fs.Rooted top) (hin : Inward fs top cur (x :: l))
    (hc : fs.child cur x = .ok i) (ht : fs.linkTarget i = some t)
    (habs : t.head? = some '/' → enters top (components t) = true) (r : List Name) :
    Inward fs top (fs.base cur t) (components t ++ r) := by
  rcases hin with hcur | ⟨rfl, hl⟩
  · unfold base
    split
    · next hslash => exact .inr ⟨rfl, enters_append (habs hslash)⟩
    · exact .inl hcur
  · rcases (enters_cons htop).mp hl with rfl | ⟨rfl, -⟩
    · rw [hR.entry i hc] at ht
      cases ht
    · rw [(child_dot hc).2] at ht
      cases ht

/-- **A walk that stays below.**  Where it has come to is below, or the rest of the way leads
there. -/
theorem walk_inward (hR : fs.Rooted top) (hl : [] ∉ l) (hr : f = true ∨ r ≠ [])
    (hin : Inward fs top cur (l ++ r)) (hs : fs.stays top f n cur (l ++ r) = true)
    (hw : fs.walk n cur l = .ok d) :
    Inward fs top d r ∧ ∃ m, fs.stays top f m d r = true := by
  induction n using Nat.strongRecOn generalizing cur l with
  | _ n ihn =>
    induction l generalizing cur with
    | nil =>
        rw [walk_nil] at hw
        cases hw
        exact ⟨hin, n, hs⟩
    | cons x l ihl =>
        have hx : x ≠ [] := by
          rintro rfl
          simp at hl
        have hl' : [] ∉ l := fun h => hl (List.mem_cons_of_mem _ h)
        obtain ⟨i, hi, hrest⟩ := walk_cons_eq_ok.mp hw
        obtain ⟨hup, hdown, hlink⟩ := stays_cons.mp hs i hi
        rcases hrest with ⟨ht, hdone⟩ | ⟨t, m, ht, rfl, hdone⟩
        · exact ihl hl' (hin.step htop hR hx hup hi) (hdown ht) hdone
        · have hne : f = true ∨ l ++ r ≠ [] := by
            rcases hr with hf | hr
            · exact .inl hf
            · exact .inr (by simp [hr])
          obtain ⟨habs, hjump⟩ := hlink t ht hne
          refine ihn m (Nat.lt_succ_self m) ?_ ?_ ?_ hdone
          · simp [nil_notMem_walkComps, hl']
          · have hin' := hin.jump htop hR hi ht habs
            rw [walkComps, List.append_assoc, List.append_assoc]
            exact hin' _
          · rw [List.append_assoc]
            exact hjump m rfl

/-- Where a name may be created. -/
theorem final_inward (hR : fs.Rooted top) (hl : [] ∉ l) (hin : Inward fs top cur l)
    (hs : fs.stays top true n cur l = true) (hw : fs.final n cur l = .ok (d, x)) :
    Inward fs top d [x] := by
  induction n using Nat.strongRecOn generalizing cur l with
  | _ n ihn =>
    induction l generalizing cur with
    | nil =>
        have hw' : (cur, []) = (d, x) := by cases n <;> exact Except.ok.inj hw
        cases hw'
        rcases hin with hcur | ⟨-, hnil⟩
        · exact .inl hcur
        · cases hnil
    | cons y l ihl =>
        have hy : y ≠ [] := by
          rintro rfl
          simp at hl
        have hl' : [] ∉ l := fun h => hl (List.mem_cons_of_mem _ h)
        rcases final_cons hw with ⟨rfl, rfl, rfl, -⟩ | ⟨i, hi, hrest⟩
        · exact hin
        · obtain ⟨hup, hdown, hlink⟩ := stays_cons.mp hs i hi
          rcases hrest with ⟨ht, hdone⟩ | ⟨t, m, ht, rfl, hdone⟩
          · exact ihl hl' (hin.step htop hR hy hup hi) (hdown ht) hdone
          · obtain ⟨habs, hjump⟩ := hlink t ht (.inl rfl)
            refine ihn m (Nat.lt_succ_self m) ?_ (hin.jump htop hR hi ht habs l)
              (stays_components (hjump m rfl)) hdone
            simp [nil_notMem_components, hl']

end

/-! ## Paths -/

theorem staysIn_iff : fs.staysIn top f p = true ↔ enters top (components p) = true ∧
    fs.stays top f maxSymlinks fs.root (walkComps p) = true := by
  rw [staysIn, Bool.and_eq_true]

/-- The directory of the last name. -/
theorem staysIn_parent {q b : CStr} (hb : '/' ∉ b) (hq : enters top (components q) = true)
    (hs : fs.staysIn top f (q ++ '/' :: b) = true) : fs.staysIn top true q = true := by
  have hlast : ∃ y, walkComps (q ++ '/' :: b) = components q ++ [y] := by
    unfold walkComps
    rw [components_append_slash]
    by_cases hnil : b = []
    · subst hnil
      exact ⟨dot, by simp [trailing]⟩
    · have htrail : trailing (q ++ '/' :: b) = false := by
        have hlast : b.getLast hnil ≠ '/' := by
          intro hc
          exact hb (hc ▸ List.getLast_mem hnil)
        simp [trailing, List.getLast?_append, List.getLast?_cons,
          List.getLast?_eq_some_getLast hnil, hlast]
      exact ⟨b, by simp [htrail, components_name hnil hb]⟩
  obtain ⟨y, hy⟩ := hlast
  have hway := (staysIn_iff.mp hs).2
  rw [hy] at hway
  have hwalk := stays_prefix hway
  refine staysIn_iff.mpr ⟨hq, ?_⟩
  unfold walkComps
  split
  · exact stays_dot hwalk
  · rwa [List.append_nil]

section

variable (htop : special top = false)

include htop

/-- What a path leads to when the last link is followed. -/
theorem resolve_below (hR : fs.Rooted top) (hs : fs.staysIn top true p = true)
    (h : fs.resolve p = .ok i) : Below fs top i := by
  obtain ⟨henters, hwalk⟩ := staysIn_iff.mp hs
  have hin : Inward fs top fs.root (walkComps p ++ []) := by
    rw [List.append_nil]
    exact .inr ⟨rfl, enters_append henters⟩
  rw [← List.append_nil (walkComps p)] at hwalk
  obtain ⟨hi, -⟩ := walk_inward htop hR (nil_notMem_walkComps p) (.inl rfl) hin hwalk
    (resolve_eq_ok.mp h).2
  rcases hi with hi | ⟨-, hnil⟩
  · exact hi
  · cases hnil

/-- What a path leads to when the last link is not followed. -/
theorem lresolve_below (hR : fs.Rooted top) (hs : fs.staysIn top f p = true)
    (h : fs.lresolve p = .ok i) : Below fs top i := by
  obtain ⟨henters, hwalk⟩ := staysIn_iff.mp hs
  obtain ⟨-, way, x, d, hway, hw, hc⟩ := lresolve_eq_ok.mp h
  have hmem : [] ∉ way ∧ x ≠ [] := by
    have hno := nil_notMem_walkComps p
    rw [hway] at hno
    simpa [eq_comm] using hno
  have hin : Inward fs top fs.root (way ++ [x]) := hway ▸ .inr ⟨rfl, enters_append henters⟩
  rw [hway] at hwalk
  obtain ⟨hd, m, hlast⟩ := walk_inward htop hR hmem.1 (.inr (by simp)) hin hwalk hw
  exact hd.last htop hR hmem.2 (stays_cons.mp hlast i hc).1 hc

/-- The last name of a path is the entry or in a directory below. -/
theorem slot_inward (hR : fs.Rooted top) (hs : fs.staysIn top f p = true)
    (h : fs.slot p = .ok (d, x)) (hx : special x = false) : Inward fs top d [x] := by
  obtain ⟨henters, hwalk⟩ := staysIn_iff.mp hs
  obtain ⟨-, -, way, hway, hw, -⟩ := slot_eq_ok.mp ⟨h, ne_nil_of_special hx⟩
  have hno : [] ∉ way := by
    have hcomps := nil_notMem_components p
    rw [hway] at hcomps
    simp only [List.mem_append, not_or] at hcomps
    exact hcomps.1
  have hin : Inward fs top fs.root (walkComps p) := .inr ⟨rfl, enters_append henters⟩
  rw [walkComps, hway, List.append_assoc] at hwalk hin
  obtain ⟨hd, -⟩ := walk_inward htop hR hno (.inr (by simp)) hin hwalk hw
  exact hd.name htop hx

/-- The last name of a path that has another one before it is in a directory below. -/
theorem slot_below (hR : fs.Rooted top) (hs : fs.staysIn top f p = true)
    (hp : components p = top :: l) (hl : l ≠ []) (h : fs.slot p = .ok (d, x)) (hx : x ≠ []) :
    Below fs top d := by
  obtain ⟨-, hwalk⟩ := staysIn_iff.mp hs
  obtain ⟨-, -, way, hway, hw, -⟩ := slot_eq_ok.mp ⟨h, hx⟩
  obtain ⟨way, rfl⟩ : ∃ way', way = top :: way' := by
    cases way with
    | nil =>
        rw [hp] at hway
        simp only [List.nil_append, List.cons.injEq] at hway
        exact absurd hway.2 hl
    | cons y way =>
        rw [hp, List.cons_append, List.cons.injEq] at hway
        exact ⟨way, by rw [hway.1]⟩
  have hno : [] ∉ top :: way := by
    have hcomps := nil_notMem_components p
    rw [hway, List.mem_append, not_or] at hcomps
    exact hcomps.1
  have hin : Inward fs top fs.root ((top :: way) ++ []) :=
    .inr ⟨rfl, (enters_cons htop).mpr (.inl rfl)⟩
  rw [walkComps, hway, List.append_assoc] at hwalk
  have hprefix := stays_prefix hwalk
  rw [← List.append_nil (top :: way)] at hprefix
  obtain ⟨hd, -⟩ := walk_inward htop hR hno (.inl rfl) hin hprefix hw
  rcases hd with hd | ⟨-, hnil⟩
  · exact hd
  · cases hnil

end

end FS

end Posix

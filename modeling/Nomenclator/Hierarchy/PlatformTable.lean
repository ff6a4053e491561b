import Nomenclator.Hierarchy.ClassShape

/-!
# Classes of the platform

The shapes of platform classes that programs commonly extend but do not ship.
Methods are listed where overriding them matters; fields are not listed.

Specification: `SPEC_FULL.md` §4.1, the platform index.
-/

namespace Nomenclator.Platform

/-- A listed class: its name, superclass, interfaces and methods. -/
structure Entry where
  name : String
  superName : Option String
  interfaces : List String
  methods : List (String × String)

/-- The shape of a listed class. -/
def Entry.shape (entry : Entry) : ClassShape :=
  let bare := ClassShape.new entry.name entry.superName
  let extended := entry.interfaces.foldl ClassShape.addInterface bare
  entry.methods.foldl (fun shape (name, descriptor) => shape.addMethod ⟨name, descriptor⟩) extended

/-- The superclass of most listed classes. -/
def object : Option String := some "java/lang/Object"

/-- The methods of the root class. -/
def objectMethods : List (String × String) :=
  [("<init>", "()V"), ("equals", "(Ljava/lang/Object;)Z"), ("hashCode", "()I"),
   ("toString", "()Ljava/lang/String;"), ("getClass", "()Ljava/lang/Class;"),
   ("clone", "()Ljava/lang/Object;"), ("finalize", "()V"), ("notify", "()V"),
   ("notifyAll", "()V"), ("wait", "()V"), ("wait", "(J)V"), ("wait", "(JI)V")]

/-- The methods of everything that can be thrown. -/
def throwableMethods : List (String × String) :=
  [("<init>", "()V"), ("<init>", "(Ljava/lang/String;)V"),
   ("<init>", "(Ljava/lang/String;Ljava/lang/Throwable;)V"),
   ("<init>", "(Ljava/lang/Throwable;)V"), ("getMessage", "()Ljava/lang/String;"),
   ("getLocalizedMessage", "()Ljava/lang/String;"), ("getCause", "()Ljava/lang/Throwable;"),
   ("printStackTrace", "()V"), ("toString", "()Ljava/lang/String;")]

/-- The constructors that exceptions share. -/
def exceptionConstructors : List (String × String) :=
  [("<init>", "()V"), ("<init>", "(Ljava/lang/String;)V"),
   ("<init>", "(Ljava/lang/String;Ljava/lang/Throwable;)V"),
   ("<init>", "(Ljava/lang/Throwable;)V")]

/-- The listed classes of `java.lang`. -/
def languageClasses : List Entry :=
  [⟨"java/lang/Object", none, [], objectMethods⟩,
   ⟨"java/lang/Enum", object, ["java/lang/Comparable", "java/io/Serializable"],
    [("<init>", "(Ljava/lang/String;I)V"), ("name", "()Ljava/lang/String;"), ("ordinal", "()I"),
     ("toString", "()Ljava/lang/String;"), ("equals", "(Ljava/lang/Object;)Z"),
     ("hashCode", "()I"), ("clone", "()Ljava/lang/Object;"), ("compareTo", "(Ljava/lang/Enum;)I"),
     ("compareTo", "(Ljava/lang/Object;)I"), ("getDeclaringClass", "()Ljava/lang/Class;"),
     ("valueOf", "(Ljava/lang/Class;Ljava/lang/String;)Ljava/lang/Enum;"), ("finalize", "()V")]⟩,
   ⟨"java/lang/Record", object, [],
    [("<init>", "()V"), ("equals", "(Ljava/lang/Object;)Z"), ("hashCode", "()I"),
     ("toString", "()Ljava/lang/String;")]⟩,
   ⟨"java/lang/Comparable", object, [], [("compareTo", "(Ljava/lang/Object;)I")]⟩,
   ⟨"java/lang/Runnable", object, [], [("run", "()V")]⟩,
   ⟨"java/lang/Iterable", object, [],
    [("iterator", "()Ljava/util/Iterator;"), ("forEach", "(Ljava/util/function/Consumer;)V"),
     ("spliterator", "()Ljava/util/Spliterator;")]⟩,
   ⟨"java/lang/AutoCloseable", object, [], [("close", "()V")]⟩,
   ⟨"java/lang/CharSequence", object, [],
    [("length", "()I"), ("charAt", "(I)C"), ("subSequence", "(II)Ljava/lang/CharSequence;"),
     ("toString", "()Ljava/lang/String;")]⟩,
   ⟨"java/lang/Cloneable", object, [], []⟩,
   ⟨"java/lang/Thread", object, ["java/lang/Runnable"],
    [("<init>", "()V"), ("<init>", "(Ljava/lang/Runnable;)V"),
     ("<init>", "(Ljava/lang/String;)V"), ("<init>", "(Ljava/lang/Runnable;Ljava/lang/String;)V"),
     ("run", "()V"), ("start", "()V"), ("interrupt", "()V"), ("isAlive", "()Z"), ("join", "()V"),
     ("getName", "()Ljava/lang/String;"), ("setName", "(Ljava/lang/String;)V"),
     ("setDaemon", "(Z)V")]⟩,
   ⟨"java/lang/Throwable", object, ["java/io/Serializable"], throwableMethods⟩,
   ⟨"java/lang/Exception", some "java/lang/Throwable", [], exceptionConstructors⟩,
   ⟨"java/lang/RuntimeException", some "java/lang/Exception", [], exceptionConstructors⟩,
   ⟨"java/lang/IllegalArgumentException", some "java/lang/RuntimeException", [],
    exceptionConstructors⟩,
   ⟨"java/lang/IllegalStateException", some "java/lang/RuntimeException", [],
    exceptionConstructors⟩,
   ⟨"java/lang/Error", some "java/lang/Throwable", [], exceptionConstructors⟩]

/-- The listed classes of `java.io`. -/
def inputOutputClasses : List Entry :=
  [⟨"java/io/Serializable", object, [], []⟩,
   ⟨"java/io/Closeable", object, ["java/lang/AutoCloseable"], [("close", "()V")]⟩,
   ⟨"java/io/IOException", some "java/lang/Exception", [], exceptionConstructors⟩]

/-- The listed classes of `java.util`. -/
def collectionClasses : List Entry :=
  [⟨"java/util/Iterator", object, [],
    [("hasNext", "()Z"), ("next", "()Ljava/lang/Object;"), ("remove", "()V")]⟩,
   ⟨"java/util/Collection", object, ["java/lang/Iterable"],
    [("size", "()I"), ("isEmpty", "()Z"), ("contains", "(Ljava/lang/Object;)Z"),
     ("add", "(Ljava/lang/Object;)Z"), ("remove", "(Ljava/lang/Object;)Z"), ("clear", "()V"),
     ("iterator", "()Ljava/util/Iterator;"), ("toArray", "()[Ljava/lang/Object;"),
     ("stream", "()Ljava/util/stream/Stream;")]⟩,
   ⟨"java/util/List", object, ["java/util/Collection"],
    [("get", "(I)Ljava/lang/Object;"), ("set", "(ILjava/lang/Object;)Ljava/lang/Object;"),
     ("add", "(ILjava/lang/Object;)V"), ("remove", "(I)Ljava/lang/Object;"),
     ("indexOf", "(Ljava/lang/Object;)I")]⟩,
   ⟨"java/util/Set", object, ["java/util/Collection"], []⟩,
   ⟨"java/util/Map", object, [],
    [("size", "()I"), ("isEmpty", "()Z"), ("get", "(Ljava/lang/Object;)Ljava/lang/Object;"),
     ("put", "(Ljava/lang/Object;Ljava/lang/Object;)Ljava/lang/Object;"),
     ("remove", "(Ljava/lang/Object;)Ljava/lang/Object;"),
     ("containsKey", "(Ljava/lang/Object;)Z"), ("keySet", "()Ljava/util/Set;"),
     ("values", "()Ljava/util/Collection;"), ("entrySet", "()Ljava/util/Set;")]⟩,
   ⟨"java/util/Comparator", object, [],
    [("compare", "(Ljava/lang/Object;Ljava/lang/Object;)I")]⟩,
   ⟨"java/util/AbstractCollection", object, ["java/util/Collection"],
    [("<init>", "()V"), ("size", "()I"), ("iterator", "()Ljava/util/Iterator;")]⟩,
   ⟨"java/util/AbstractList", some "java/util/AbstractCollection", ["java/util/List"],
    [("<init>", "()V"), ("get", "(I)Ljava/lang/Object;")]⟩,
   ⟨"java/util/ArrayList", some "java/util/AbstractList",
    ["java/util/List", "java/lang/Cloneable", "java/io/Serializable"],
    [("<init>", "()V"), ("<init>", "(I)V"), ("size", "()I")]⟩,
   ⟨"java/util/HashMap", object, ["java/util/Map", "java/lang/Cloneable", "java/io/Serializable"],
    [("<init>", "()V"), ("<init>", "(I)V")]⟩]

/-- The listed classes of `java.util.function`. -/
def functionClasses : List Entry :=
  [⟨"java/util/function/Supplier", object, [], [("get", "()Ljava/lang/Object;")]⟩,
   ⟨"java/util/function/Consumer", object, [], [("accept", "(Ljava/lang/Object;)V")]⟩,
   ⟨"java/util/function/Function", object, [],
    [("apply", "(Ljava/lang/Object;)Ljava/lang/Object;")]⟩,
   ⟨"java/util/function/Predicate", object, [], [("test", "(Ljava/lang/Object;)Z")]⟩,
   ⟨"java/util/function/BiFunction", object, [],
    [("apply", "(Ljava/lang/Object;Ljava/lang/Object;)Ljava/lang/Object;")]⟩]

/-- Every listed class. -/
def entries : List Entry :=
  languageClasses ++ inputOutputClasses ++ collectionClasses ++ functionClasses

end Nomenclator.Platform

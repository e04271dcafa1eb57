import StackMaps.Hierarchy.Basic

/-!
The common classes of `java.lang`, `java.io` and `java.util`, which are known without any class
path.
-/

namespace StackMaps

namespace BinaryName

def appendable : BinaryName := ⟨"java/lang/Appendable", by decide +kernel⟩
def autoCloseable : BinaryName := ⟨"java/lang/AutoCloseable", by decide +kernel⟩
def charSequence : BinaryName := ⟨"java/lang/CharSequence", by decide +kernel⟩
def comparable : BinaryName := ⟨"java/lang/Comparable", by decide +kernel⟩
def iterable : BinaryName := ⟨"java/lang/Iterable", by decide +kernel⟩
def enum : BinaryName := ⟨"java/lang/Enum", by decide +kernel⟩
def boolean : BinaryName := ⟨"java/lang/Boolean", by decide +kernel⟩
def character : BinaryName := ⟨"java/lang/Character", by decide +kernel⟩
def number : BinaryName := ⟨"java/lang/Number", by decide +kernel⟩
def byte : BinaryName := ⟨"java/lang/Byte", by decide +kernel⟩
def short : BinaryName := ⟨"java/lang/Short", by decide +kernel⟩
def integer : BinaryName := ⟨"java/lang/Integer", by decide +kernel⟩
def long : BinaryName := ⟨"java/lang/Long", by decide +kernel⟩
def float : BinaryName := ⟨"java/lang/Float", by decide +kernel⟩
def double : BinaryName := ⟨"java/lang/Double", by decide +kernel⟩
def abstractStringBuilder : BinaryName := ⟨"java/lang/AbstractStringBuilder", by decide +kernel⟩
def stringBuilder : BinaryName := ⟨"java/lang/StringBuilder", by decide +kernel⟩
def error : BinaryName := ⟨"java/lang/Error", by decide +kernel⟩
def assertionError : BinaryName := ⟨"java/lang/AssertionError", by decide +kernel⟩
def linkageError : BinaryName := ⟨"java/lang/LinkageError", by decide +kernel⟩
def exception : BinaryName := ⟨"java/lang/Exception", by decide +kernel⟩
def runtimeException : BinaryName := ⟨"java/lang/RuntimeException", by decide +kernel⟩
def arithmeticException : BinaryName := ⟨"java/lang/ArithmeticException", by decide +kernel⟩
def classCastException : BinaryName := ⟨"java/lang/ClassCastException", by decide +kernel⟩
def illegalArgumentException : BinaryName :=
  ⟨"java/lang/IllegalArgumentException", by decide +kernel⟩
def numberFormatException : BinaryName := ⟨"java/lang/NumberFormatException", by decide +kernel⟩
def illegalStateException : BinaryName := ⟨"java/lang/IllegalStateException", by decide +kernel⟩
def indexOutOfBoundsException : BinaryName :=
  ⟨"java/lang/IndexOutOfBoundsException", by decide +kernel⟩
def arrayIndexOutOfBoundsException : BinaryName :=
  ⟨"java/lang/ArrayIndexOutOfBoundsException", by decide +kernel⟩
def nullPointerException : BinaryName := ⟨"java/lang/NullPointerException", by decide +kernel⟩
def unsupportedOperationException : BinaryName :=
  ⟨"java/lang/UnsupportedOperationException", by decide +kernel⟩
def closeable : BinaryName := ⟨"java/io/Closeable", by decide +kernel⟩
def flushable : BinaryName := ⟨"java/io/Flushable", by decide +kernel⟩
def inputStream : BinaryName := ⟨"java/io/InputStream", by decide +kernel⟩
def outputStream : BinaryName := ⟨"java/io/OutputStream", by decide +kernel⟩
def ioException : BinaryName := ⟨"java/io/IOException", by decide +kernel⟩
def uncheckedIOException : BinaryName := ⟨"java/io/UncheckedIOException", by decide +kernel⟩
def collection : BinaryName := ⟨"java/util/Collection", by decide +kernel⟩
def list : BinaryName := ⟨"java/util/List", by decide +kernel⟩
def map : BinaryName := ⟨"java/util/Map", by decide +kernel⟩
def iterator : BinaryName := ⟨"java/util/Iterator", by decide +kernel⟩
def randomAccess : BinaryName := ⟨"java/util/RandomAccess", by decide +kernel⟩
def abstractCollection : BinaryName := ⟨"java/util/AbstractCollection", by decide +kernel⟩
def abstractList : BinaryName := ⟨"java/util/AbstractList", by decide +kernel⟩
def arrayList : BinaryName := ⟨"java/util/ArrayList", by decide +kernel⟩
def abstractMap : BinaryName := ⟨"java/util/AbstractMap", by decide +kernel⟩
def hashMap : BinaryName := ⟨"java/util/HashMap", by decide +kernel⟩
def noSuchElementException : BinaryName := ⟨"java/util/NoSuchElementException", by decide +kernel⟩

end BinaryName

namespace StandardClasses

open BinaryName

def declareClass (name superclass : BinaryName) (interfaces : List BinaryName) : ClassHeader :=
  ⟨name, some superclass, interfaces, .ofBits 0x0021⟩

def declareInterface (name : BinaryName) (interfaces : List BinaryName) : ClassHeader :=
  ⟨name, some object, interfaces, .ofBits 0x0601⟩

def all : List ClassHeader :=
  [⟨object, none, [], .ofBits 0x0021⟩,
    declareInterface appendable [],
    declareInterface autoCloseable [],
    declareInterface charSequence [],
    declareInterface cloneable [],
    declareInterface comparable [],
    declareInterface iterable [],
    declareInterface serializable [],
    declareClass string object [serializable, comparable, charSequence],
    declareClass cls object [serializable],
    declareClass enum object [serializable, comparable],
    declareClass boolean object [serializable, comparable],
    declareClass character object [serializable, comparable],
    declareClass number object [serializable],
    declareClass byte number [comparable],
    declareClass short number [comparable],
    declareClass integer number [comparable],
    declareClass long number [comparable],
    declareClass float number [comparable],
    declareClass double number [comparable],
    declareClass abstractStringBuilder object [appendable, charSequence],
    declareClass stringBuilder abstractStringBuilder [serializable, charSequence],
    declareClass methodHandle object [],
    declareClass methodType object [serializable],
    declareClass throwable object [serializable],
    declareClass error throwable [],
    declareClass assertionError error [],
    declareClass linkageError error [],
    declareClass exception throwable [],
    declareClass runtimeException exception [],
    declareClass arithmeticException runtimeException [],
    declareClass classCastException runtimeException [],
    declareClass illegalArgumentException runtimeException [],
    declareClass numberFormatException illegalArgumentException [],
    declareClass illegalStateException runtimeException [],
    declareClass indexOutOfBoundsException runtimeException [],
    declareClass arrayIndexOutOfBoundsException indexOutOfBoundsException [],
    declareClass nullPointerException runtimeException [],
    declareClass unsupportedOperationException runtimeException [],
    declareInterface closeable [autoCloseable],
    declareInterface flushable [],
    declareClass inputStream object [closeable],
    declareClass outputStream object [closeable, flushable],
    declareClass ioException exception [],
    declareClass uncheckedIOException runtimeException [],
    declareInterface collection [iterable],
    declareInterface list [collection],
    declareInterface map [],
    declareInterface iterator [],
    declareInterface randomAccess [],
    declareClass abstractCollection object [collection],
    declareClass abstractList abstractCollection [list],
    declareClass arrayList abstractList [list, randomAccess, cloneable, serializable],
    declareClass abstractMap object [map],
    declareClass hashMap abstractMap [map, cloneable, serializable],
    declareClass noSuchElementException runtimeException []]

end StandardClasses

end StackMaps

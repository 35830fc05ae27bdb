import Dalvik.Image.Builder

/-!
# A sample image

A small class with an initial value, an instance field, code in two direct methods and a native
method.
-/

namespace Dalvik.Sample

/-- The text of the sample class. -/
def fibonacci : Bytes := ascii "
.class public Lfibonacci;
.super Ljava/lang/Object;
.source \"fibonacci.java\"

.field static final LIMIT:I = 0x14

.field private last:J

.method public constructor <init>()V
    .registers 1
    invoke-direct \x7bp0\x7d, Ljava/lang/Object;-><init>()V
    return-void
.end method

.method public static ifibonacci(I)I
    .registers 4
    const/4 v0, 0x0
    const/4 v1, 0x1

    :goto_0
    if-lez p0, :cond_0
    add-int v2, v0, v1
    move v0, v1
    move v1, v2
    add-int/lit8 p0, p0, -0x1
    goto :goto_0

    :cond_0
    return v0
.end method

.method public native rfibonacci(I)I
.end method
"

/-- The image that holds the sample class. -/
def image : Except Stop Bytes := do
  let (r, b) := (Builder.addText (ascii "fibonacci.smali") fibonacci).apply {}
  r
  b.build

end Dalvik.Sample

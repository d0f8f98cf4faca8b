import Lowering.Mask
/-!
Registers of x86-64. General registers have the numbers 0 to 15 of their encoding, the SSE
registers follow as 16 to 31.
-/
namespace Lowering.X64

def rax : Register := 0
def rcx : Register := 1
def rdx : Register := 2
def rbx : Register := 3
def rsp : Register := 4
def rbp : Register := 5
def rsi : Register := 6
def rdi : Register := 7
def r8 : Register := 8
def r9 : Register := 9
def r11 : Register := 11
def r12 : Register := 12
def xmm0 : Register := 16

def generalRegisters : RegisterSet := 0xFFFF#64

def floatRegisters : RegisterSet := 0xFFFF0000#64

def thread : Register := rbx

def scratch : Register := r11

def isGeneral (r : Register) : Bool := r < 16

def isFloat (r : Register) : Bool := 16 ≤ r && r ≤ 31

end Lowering.X64
